import Mathlib.Logic.Function.Defs
import Reexport.Proofs.Listings

/-!
# Paths put together from names

A path one level down has one component more. So a path below a directory can be taken apart
into the names on the way, as long as the names are those of files.

Results:

* `components_join`: the components of a path one level down.
* `splitExtension_rs`, `stem_inj`: the stem of a source file.
* `Disk.WellNamed`: disks from whose names paths can be put together.
-/

namespace Reexport

/-- A name that an entry of a directory may have. -/
def IsFileName (name : String) : Prop :=
  name ≠ "" ∧ name ≠ "." ∧ name ≠ ".." ∧ '/' ∉ name.toList

instance (name : String) : Decidable (IsFileName name) :=
  inferInstanceAs (Decidable (_ ∧ _ ∧ _ ∧ _))

namespace Path

theorem pieces_ne_nil (cs : List Char) : pieces cs ≠ [] := by
  cases cs with
  | nil => simp [pieces]
  | cons c cs =>
    rw [pieces]
    split_ifs
    · simp
    · split <;> simp

theorem pieces_append (front back : List Char) :
    pieces (front ++ '/' :: back) = pieces front ++ pieces back := by
  induction front with
  | nil => simp [pieces]
  | cons c cs ih =>
    rw [List.cons_append, pieces, pieces, ih]
    split_ifs
    · rfl
    · obtain ⟨first, rest, hpieces⟩ := List.exists_cons_of_ne_nil (pieces_ne_nil cs)
      rw [hpieces]
      rfl

theorem pieces_of_no_slash {cs : List Char} (h : '/' ∉ cs) : pieces cs = [cs] := by
  induction cs with
  | nil => rfl
  | cons c cs ih =>
    rw [List.mem_cons, not_or] at h
    rw [pieces, if_neg (Ne.symm h.1), ih h.2]

theorem eq_nil_of_pieces {cs : List Char} (h : pieces cs = [[]]) : cs = [] := by
  cases cs with
  | nil => rfl
  | cons c cs =>
    rw [pieces] at h
    split_ifs at h
    · exact absurd (List.cons.inj h).2 (pieces_ne_nil cs)
    · split at h <;> cases h

/-- The components that the first piece of a path stands for. -/
def leading (first : List Char) : List Component :=
  if first = [] then [.root] else if first = ['.'] then [.here] else (component? first).toList

theorem components_of_pieces {path : String} {first : List Char} {rest : List (List Char)}
    (h : pieces path.toList = first :: rest) (hne : first ≠ [] ∨ rest ≠ []) :
    components path = leading first ++ rest.filterMap component? := by
  unfold components leading
  rw [h]
  cases first with
  | nil =>
    cases rest with
    | nil => simp at hne
    | cons second rest => rfl
  | cons c cs => rfl

theorem component?_of_name {name : String} (h : IsFileName name) :
    component? name.toList = some (.name name.toList) := by
  obtain ⟨hempty, hhere, hup, -⟩ := h
  have htext : ∀ text : String, name ≠ text → name.toList ≠ text.toList :=
    fun text hne heq => hne (String.toList_inj.1 heq)
  unfold component?
  rw [if_neg, if_neg]
  · exact htext ".." hup
  · exact not_or.2 ⟨htext "" hempty, htext "." hhere⟩

theorem leading_of_name {name : String} (h : IsFileName name) :
    leading name.toList = [.name name.toList] := by
  rw [leading, if_neg, if_neg, component?_of_name h]
  · rfl
  · exact fun heq => h.2.1 (String.toList_inj.1 heq)
  · exact fun heq => h.1 (String.toList_inj.1 heq)

/-- The components of a path one level down. -/
theorem components_join {base name : String} (h : IsFileName name) :
    components (join base name) = components base ++ [.name name.toList] := by
  have hpieces : pieces name.toList = [name.toList] := pieces_of_no_slash h.2.2.2
  have hrelative : isAbsolute name = false := by
    unfold isAbsolute
    cases hchars : name.toList with
    | nil => rfl
    | cons c cs =>
      have hslash := h.2.2.2
      rw [hchars, List.mem_cons, not_or] at hslash
      simpa using Ne.symm hslash.1
  unfold join
  rw [hrelative, if_neg Bool.false_ne_true]
  by_cases hempty : base = ""
  · subst hempty
    have hne : name.toList ≠ [] := fun heq => h.1 (String.toList_inj.1 heq)
    rw [if_pos (by simp), String.empty_append, components_of_pieces hpieces (.inl hne),
      leading_of_name h]
    rfl
  by_cases hends : base.toList.getLast? = some '/'
  · -- the separator is there already
    obtain ⟨front, hfront⟩ := List.getLast?_eq_some_iff.1 hends
    obtain ⟨first, rest, hfirst⟩ := List.exists_cons_of_ne_nil (pieces_ne_nil front)
    have hbase : pieces base.toList = first :: (rest ++ [[]]) := by
      rw [hfront, pieces_append, hfirst]
      rfl
    have hjoined : pieces (base ++ name).toList = first :: (rest ++ [name.toList]) := by
      rw [String.toList_append, hfront, List.append_assoc, List.singleton_append, pieces_append, hfirst,
        hpieces]
      rfl
    rw [if_pos (by simp [hends]), components_of_pieces hbase (by simp),
      components_of_pieces hjoined (by simp)]
    simp [component?_of_name h, show component? [] = none from rfl]
  · obtain ⟨first, rest, hfirst⟩ := List.exists_cons_of_ne_nil (pieces_ne_nil base.toList)
    have hjoined : pieces (base ++ "/" ++ name).toList = first :: (rest ++ [name.toList]) := by
      rw [String.toList_append, String.toList_append, List.append_assoc]
      show pieces (base.toList ++ '/' :: name.toList) = _
      rw [pieces_append, hfirst, hpieces]
      rfl
    have hne : first ≠ [] ∨ rest ≠ [] := by
      by_contra hnone
      push Not at hnone
      rw [hnone.1, hnone.2] at hfirst
      exact hempty (String.toList_inj.1 (eq_nil_of_pieces hfirst))
    rw [if_neg (by simp [hends, hempty]), components_of_pieces hfirst hne,
      components_of_pieces hjoined (by simp)]
    simp [component?_of_name h]

/-- A component that is a name. -/
def Component.ofName (name : String) : Component := .name name.toList

theorem Component.ofName_injective : Function.Injective Component.ofName := by
  intro a b h
  exact String.toList_inj.1 (Component.name.inj h)

/-- A file name ends in its extension. -/
theorem splitExtension_rs {stem : String} (h : stem ≠ "") :
    splitExtension (stem ++ ".rs") = (stem, some "rs") := by
  have hchars : stem.toList.reverse ≠ [] := by simpa using h
  obtain ⟨c, rest, hreversed⟩ := List.exists_cons_of_ne_nil hchars
  have hname : (stem ++ ".rs").toList.reverse = 's' :: 'r' :: '.' :: c :: rest := by
    rw [String.toList_append, List.reverse_append, hreversed]
    rfl
  have hstem : String.ofList (c :: rest).reverse = stem := by
    rw [← hreversed, List.reverse_reverse, String.ofList_toList]
  have hsplit : splitExtension (stem ++ ".rs") = (String.ofList (c :: rest).reverse, some "rs") := by
    unfold splitExtension
    simp only [hname]
    rfl
  rw [hsplit, hstem]

theorem stem_inj {a b : String} (h : a ++ ".rs" = b ++ ".rs") : a = b := by
  have hchars := congrArg String.toList h
  rw [String.toList_append, String.toList_append] at hchars
  exact String.toList_inj.1 (List.append_cancel_right hchars)

end Path

/-- Paths can be put together from the names on a disk and taken apart again. -/
def Disk.WellNamed (disk : Disk) : Prop :=
  ∀ entry ∈ disk.entries, ∀ name ∈ entry.1, IsFileName name

instance (disk : Disk) : Decidable disk.WellNamed :=
  inferInstanceAs (Decidable (∀ entry ∈ disk.entries, ∀ name ∈ entry.1, IsFileName name))

theorem Disk.WellNamed.isFileName {disk : Disk} (h : disk.WellNamed) {place : Disk.Place} {name : String}
    (hname : name ∈ disk.names place) : IsFileName name := by
  obtain ⟨entry, hentry, heq⟩ := List.mem_map.1 (Disk.mem_names.1 hname)
  exact h entry hentry name (by rw [heq]; simp)

end Reexport
