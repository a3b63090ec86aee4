import Reexport.Proofs.ListedScans

/-!
# Edited units are read back

A unit whose stars have been replaced by lists is a unit again. Its items are those of the unit
before, in their order, and the only ones that mean something else are those whose star has been
replaced: they list the names of their edit. Edits are applied from the end of the text to its
start, so that while they are, the stars still to come keep their spans.

Results:

* `Directive.edited_of_behind`, `Directive.edited_perm`: which edits a directive depends on.
* `Edit.applyAll_readable`: all edits, one after the other.
* `planned_read_back`: the scan of an edited unit.
* `leftOpen_refused`: an interpreter line that leaves a comment open.
-/

namespace Reexport

open Source Grammar Text

/-- The form of a directive once edits have been applied: a wildcard whose star is replaced lists the
    names of its edit. -/
def Form.listing (edits : List Edit) : Form Span → Form Unit
  | .wildcard path star =>
    match edits.find? (·.star = star) with
    | some e => .explicit (listPins path e.names)
    | none => .wildcard path ()
  | .explicit pins => .explicit pins
  | .ambiguous why => .ambiguous why

/-- What a directive does once edits have been applied. -/
def Directive.edited (edits : List Edit) (d : Directive) : Bool × Form Unit := (d.absolute, d.form.listing edits)

namespace Directive

theorem edited_of_meaning {edits : List Edit} {directives directives' : List Directive}
    (h : directives'.map meaning = directives.map meaning) :
    directives'.map (edited edits) = directives.map (edited edits) := by
  have hcomp : edited edits = (fun shape => (shape.1, shape.2.listing edits)) ∘ meaning := rfl
  rw [hcomp, ← List.map_map, h, List.map_map]

theorem star?_of_meaning {d d' : Directive} (h : d'.meaning = d.meaning) : d'.star? = d.star? := by
  have hform : d'.form = d.form := congrArg Prod.snd h
  rw [star?, star?, hform]

theorem star?_eq_some {d : Directive} {star : Span} (h : d.star? = some star) : ∃ way, d.form = .wildcard way star := by
  unfold star? at h
  split at h
  · rename_i way star' hform
    cases h
    exact ⟨way, hform⟩
  · cases h

/-- A directive whose star is not replaced stays as it is. -/
theorem edited_of_ne {edits : List Edit} {d : Directive} (h : ∀ star, d.star? = some star → ∀ e ∈ edits, e.star ≠ star) :
    d.edited edits = d.outline := by
  unfold edited outline
  cases hform : d.form with
  | wildcard way star =>
    have hnone : edits.find? (·.star = star) = none :=
      List.find?_eq_none.2 fun e he => by simpa using h star (by rw [star?, hform]) e he
    rw [Form.listing, hnone]
    rfl
  | explicit pins => rfl
  | ambiguous why => rfl

/-- An edit for another star changes nothing about a directive. -/
theorem edited_cons {edits : List Edit} {e : Edit} {d : Directive} (h : ∀ star, d.star? = some star → e.star ≠ star) :
    d.edited (e :: edits) = d.edited edits := by
  unfold edited
  cases hform : d.form with
  | wildcard way star =>
    have hne := h star (by rw [star?, hform])
    rw [Form.listing, Form.listing, List.find?_cons_of_neg (by simpa using hne)]
  | explicit pins => rfl
  | ambiguous why => rfl

theorem edited_self {edits : List Edit} {e : Edit} {d : Directive} {way : List String} (h : d.form = .wildcard way e.star) :
    d.edited (e :: edits) = (d.absolute, .explicit (listPins way e.names)) := by
  rw [edited, h, Form.listing, List.find?_cons_of_pos (by simp)]

/-- Directives behind all stars that are replaced stay as they are. -/
theorem edited_of_behind {edits : List Edit} {front back : List Directive} (h : StarsIncrease (front ++ back))
    (hedits : ∀ e ∈ edits, ∃ d ∈ front, d.star? = some e.star) :
    back.map (edited edits) = back.map outline := by
  refine List.map_congr_left fun b hb => edited_of_ne fun star hstar e he heq => ?_
  obtain ⟨d, hd, hstar'⟩ := hedits e he
  have hlt := (List.pairwise_append.1 h).2.2 d hd b hb _ hstar' _ hstar
  rw [heq] at hlt
  exact Nat.lt_irrefl _ hlt

/-- Of edits for different stars the order does not matter. -/
theorem edited_perm {edits others : List Edit} (hperm : others.Perm edits) (honce : (edits.map Edit.star).Nodup)
    (d : Directive) : d.edited others = d.edited edits := by
  have hfind : ∀ star, others.find? (·.star = star) = edits.find? (·.star = star) := by
    intro star
    cases hedit : edits.find? (·.star = star) with
    | none =>
      rw [List.find?_eq_none] at hedit ⊢
      exact fun e he => hedit e (hperm.mem_iff.1 he)
    | some e =>
      have hstar : e.star = star := by simpa using List.find?_some hedit
      have he := hperm.mem_iff.2 (List.mem_of_find?_eq_some hedit)
      obtain ⟨e', hfound⟩ : ∃ e', others.find? (·.star = star) = some e' :=
        Option.isSome_iff_exists.1 (List.find?_isSome.2 ⟨e, he, by simpa using hstar⟩)
      have hstar' : e'.star = star := by simpa using List.find?_some hfound
      have he' := hperm.mem_iff.1 (List.mem_of_find?_eq_some hfound)
      rw [hfound, List.inj_on_of_nodup_map honce he' (hperm.mem_iff.1 he) (hstar'.trans hstar.symm)]
  unfold edited
  cases d.form with
  | wildcard way star => rw [Form.listing, Form.listing, hfind star]
  | explicit pins => rfl
  | ambiguous why => rfl

end Directive

namespace Edit

/-- However a list is laid out, it starts with a brace. -/
theorem exists_of_rendered {text : List Char} {width : Nat} {e : Edit} {list : List Char}
    (h : rendered? text width e = some list) : ∃ x, list = '{' :: x := by
  obtain ⟨⟨before, after⟩, -, rfl⟩ := Option.map_eq_some_iff.1 h
  simp only [render]
  split_ifs
  · exact ⟨_, rfl⟩
  · exact ⟨_, by rw [wrapped, List.append_assoc, List.append_assoc]; rfl⟩

/-- The names of an edit can be listed. -/
def Lists (e : Edit) : Prop := ∀ name ∈ e.names, IsWord name ∧ Listable name

/-- Edits from the end of a text to its start, one after the other. -/
theorem applyAll_readable {path : String} {text : List Char} {width : Nat} : ∀ {edits : List Edit} {out : List Char}
    {found : Scan}, Readable path out found → edits.Pairwise (fun a b => b.star.start < a.star.start) →
    (∀ e ∈ edits, Fresh text e ∧ e.Lists ∧ ∃ d ∈ found.directives, d.star? = some e.star) →
    ∃ out' found', applyAll text width edits out = .ok out' ∧ Readable path out' found' ∧
      found'.symbols.map Symbol.label = found.symbols.map Symbol.label ∧
      found'.directives.map Directive.outline = found.directives.map (Directive.edited edits) := by
  intro edits
  induction edits with
  | nil =>
    intro out found hread _ _
    refine ⟨out, found, rfl, hread, rfl, List.map_congr_left fun d _ => ?_⟩
    exact (Directive.edited_of_ne fun _ _ e he => absurd he List.not_mem_nil).symm
  | cons e rest ih =>
    intro out found hread hsorted hedits
    obtain ⟨hbefore, hsorted⟩ := List.pairwise_cons.1 hsorted
    obtain ⟨hfresh, hlists, d, hd, hstar⟩ := hedits e List.mem_cons_self
    obtain ⟨list, hlist⟩ := Option.isSome_iff_exists.1 ((rendered?_isSome_iff width).2 hfresh)
    obtain ⟨x, rfl⟩ := exists_of_rendered hlist
    obtain ⟨way, hform⟩ := Directive.star?_eq_some hstar
    obtain ⟨front, back, hdirectives⟩ := List.append_of_mem hd
    have hincrease := scan_stars hread.scanned
    rw [hdirectives] at hincrease
    obtain ⟨-, horder, hordered⟩ := List.pairwise_append.1 hincrease
    obtain ⟨v, q, rfl, hstart, hlisted⟩ := hread.listed hdirectives hform
    obtain ⟨closed, hreads⟩ := Reads.rendered hlist (fun name hname => (hlists name hname).1) q
    obtain ⟨found₁, hread₁, hsymbols₁, front', d', back', hdirectives₁, hfront, hd', hback⟩ :=
      hlisted hreads fun name hname => (hlists name hname).2
    have hincrease₁ := scan_stars hread₁.scanned
    rw [hdirectives₁] at hincrease₁
    -- the stars to come are in front, before and after this edit
    have hfronts : ∀ e' ∈ rest, ∃ d₀ ∈ front, d₀.star? = some e'.star := by
      intro e' he'
      obtain ⟨-, -, d₀, hd₀, hstar₀⟩ := hedits e' (List.mem_cons_of_mem _ he')
      have hlt := hbefore e' he'
      rw [hdirectives] at hd₀
      rcases List.mem_append.1 hd₀ with hd₀ | hd₀
      · exact ⟨d₀, hd₀, hstar₀⟩
      · rcases List.mem_cons.1 hd₀ with rfl | hd₀
        · rw [hstar, Option.some.injEq] at hstar₀
          rw [hstar₀] at hlt
          exact absurd hlt (Nat.lt_irrefl _)
        · exact absurd ((List.pairwise_cons.1 horder).1 d₀ hd₀ _ hstar _ hstar₀) (Nat.lt_asymm hlt)
    have hfronts' : ∀ e' ∈ rest, ∃ d₁ ∈ front', d₁.star? = some e'.star := by
      intro e' he'
      obtain ⟨d₀, hd₀, hstar₀⟩ := hfronts e' he'
      obtain ⟨d₁, hd₁, hmeaning⟩ := List.mem_map.1 (hfront ▸ List.mem_map_of_mem hd₀ : d₀.meaning ∈ front'.map Directive.meaning)
      exact ⟨d₁, hd₁, by rw [Directive.star?_of_meaning hmeaning, hstar₀]⟩
    obtain ⟨out', found', happly, hread', hsymbols', houtline'⟩ := ih hread₁ hsorted fun e' he' => by
      obtain ⟨hfresh', hlists', -⟩ := hedits e' (List.mem_cons_of_mem _ he')
      obtain ⟨d₁, hd₁, hstar₁⟩ := hfronts' e' he'
      exact ⟨hfresh', hlists', d₁, by rw [hdirectives₁]; exact List.mem_append_left _ hd₁, hstar₁⟩
    refine ⟨out', found', ?_, hread', hsymbols'.trans hsymbols₁, houtline'.trans ?_⟩
    · have hreplace : replaceAt e.star.start ('{' :: x) (v ++ '*' :: q) = v ++ '{' :: (x ++ q) := by
        rw [replaceAt, ← hstart, split?_append]
        simp
      rw [applyAll, hlist]
      simp only [hreplace, happly]
    · have hleft : front'.map (Directive.edited rest) = front.map (Directive.edited (e :: rest)) := by
        rw [Directive.edited_of_meaning hfront]
        refine List.map_congr_left fun d₀ hd₀ => (Directive.edited_cons fun star hstar₀ heq => ?_).symm
        have hlt := hordered d₀ hd₀ d List.mem_cons_self _ hstar₀ _ hstar
        rw [heq] at hlt
        exact Nat.lt_irrefl _ hlt
      have hhere : d'.edited rest = d.edited (e :: rest) := by
        obtain ⟨habsolute, hform'⟩ := Prod.mk.inj hd'
        rw [Directive.edited_self hform, Directive.edited, habsolute, hform', Form.listing]
      have hright : back'.map (Directive.edited rest) = back.map (Directive.edited (e :: rest)) := by
        rw [List.append_cons] at hincrease hincrease₁
        rw [Directive.edited_of_behind hincrease₁ fun e' he' => ?_, hback, Directive.edited_of_behind hincrease fun e' he' => ?_]
        · rcases List.mem_cons.1 he' with rfl | he'
          · exact ⟨d, by simp, hstar⟩
          · obtain ⟨d₀, hd₀, hstar₀⟩ := hfronts e' he'
            exact ⟨d₀, List.mem_append_left _ hd₀, hstar₀⟩
        · obtain ⟨d₁, hd₁, hstar₁⟩ := hfronts' e' he'
          exact ⟨d₁, List.mem_append_left _ hd₁, hstar₁⟩
      rw [hdirectives, hdirectives₁, List.map_append, List.map_append, List.map_cons, List.map_cons, hleft, hhere, hright]

end Edit

/-- **Edited units are read back.** Take a unit with at most one byte order mark whose interpreter line,
    if there is one, leaves no block comment open, and edits that give some of its wildcards a list
    of identifiers, none of them reserved under the raw mark, each wildcard at most one. Then the
    edits succeed and the edited text is a unit again. It has the symbols of the unit before and as
    many directives; each of them does what it did, but the edited ones list the names of their
    edits, in their order and none renamed. -/
theorem planned_read_back {path source : String} {found : Scan} {edits : List Edit}
    (hmark : withoutMark (withoutMark source.toList) = withoutMark source.toList)
    (hline : interpreterLeftOpen (withoutMark source.toList) = false) (h : scan path source = .ok found)
    (hstars : ∀ e ∈ edits, ∃ d ∈ found.directives, d.star? = some e.star) (honce : (edits.map Edit.star).Nodup)
    (hnames : ∀ e ∈ edits, e.Lists) (width : Nat) :
    ∃ planned found', planEdits source edits width = .ok planned ∧ scan path planned.text = .ok found' ∧
      found'.symbols.map Symbol.label = found.symbols.map Symbol.label ∧
      found'.directives.map Directive.outline = found.directives.map (Directive.edited edits) := by
  have hfresh : ∀ e ∈ edits, Edit.Fresh source.toList e := by
    intro e he
    obtain ⟨d, hd, hstar⟩ := hstars e he
    exact (((scan_spans hmark h).1 d hd).star e.star hstar).2.2
  have hapart : Edit.Apart edits := by
    rw [Edit.Apart, List.nodup_iff_pairwise_ne, List.pairwise_map]
    rw [List.nodup_iff_pairwise_ne, List.pairwise_map] at honce
    refine honce.imp_of_mem fun {a b} ha hb hne hstart => hne ?_
    obtain ⟨-, -, -, -, hstop⟩ := Edit.fresh_iff.1 (hfresh a ha)
    obtain ⟨-, -, -, -, hstop'⟩ := Edit.fresh_iff.1 (hfresh b hb)
    rw [hstart, ← hstop'] at hstop
    exact congrArg₂ Span.mk hstart hstop
  have hread : Readable path source.toList found := ⟨hmark, hline, by rw [String.ofList_toList, h]⟩
  have hperm := Edit.backwards_perm edits
  have hedits : ∀ e ∈ Edit.backwards edits, Edit.Fresh source.toList e ∧ e.Lists ∧
      ∃ d ∈ found.directives, d.star? = some e.star := by
    intro e he
    rw [hperm.mem_iff] at he
    exact ⟨hfresh e he, hnames e he, hstars e he⟩
  obtain ⟨out, found', happly, hread', hsymbols, houtline⟩ :=
    @Edit.applyAll_readable path source.toList width _ _ _ hread hapart.backwards_pairwise hedits
  have hplan : planEdits source edits width = .ok ⟨String.ofList out, edits.map (Edit.listFor source width)⟩ := by
    rw [Edit.planEdits_eq, happly, Except.map]
  refine ⟨_, found', hplan, hread'.scanned, hsymbols, houtline.trans ?_⟩
  exact List.map_congr_left fun d _ => Directive.edited_perm hperm honce d

/-- A unit with a byte order mark, an interpreter line and carriage returns. -/
def scriptText : String :=
  "\uFEFF#!/* é */ run\r\npub mod m;\r\npub use r#type::*; pub use self::m::\x7bx as y\x7d;\r\npub use ::d::e::*;\r\n"

/-- Lists for two of its wildcards, one of them empty. -/
def scriptEdits : List Edit := [⟨⟨94, 95⟩, ["type", "f"]⟩, ⟨⟨47, 48⟩, []⟩]

theorem planned_read_back_script :
    interpreterLeftOpen (withoutMark scriptText.toList) = false ∧
    ∃ planned found', planEdits scriptText scriptEdits 20 = .ok planned ∧ scan "lib.rs" planned.text = .ok found' ∧
      found'.symbols.map Symbol.label = [("m", .submodule)] ∧
      found'.directives.map Directive.outline =
        [(false, .explicit []), (false, .explicit [⟨["self", "m"], "x", some "y"⟩]),
          (true, .explicit [⟨["d", "e"], "type", none⟩, ⟨["d", "e"], "f", none⟩])] := by
  have hline : interpreterLeftOpen (withoutMark scriptText.toList) = false := by decide +kernel
  have hfound : (scan "lib.rs" scriptText).toOption.map (fun found =>
      (found.symbols.map Symbol.label, found.directives.map Directive.meaning)) =
      some ([("m", .submodule)], [(false, .wildcard ["type"] ⟨47, 48⟩),
        (false, .explicit [⟨["self", "m"], "x", some "y"⟩]), (true, .wildcard ["d", "e"] ⟨94, 95⟩)]) := by
    decide +kernel
  cases hscan : scan "lib.rs" scriptText with
  | error line =>
    rw [hscan] at hfound
    cases hfound
  | ok found =>
    rw [hscan] at hfound
    obtain ⟨hsymbols, hmeaning⟩ := Prod.mk.inj (Option.some.inj hfound)
    have hstar : ∀ {absolute : Bool} {way : List String} {star : Span},
        (absolute, Form.wildcard way star) ∈ found.directives.map Directive.meaning →
        ∃ d ∈ found.directives, d.star? = some star := by
      intro absolute way star hmem
      obtain ⟨d, hd, hshape⟩ := List.mem_map.1 hmem
      have hform : d.form = .wildcard way star := congrArg Prod.snd hshape
      exact ⟨d, hd, by rw [Directive.star?, hform]⟩
    have hstars : ∀ e ∈ scriptEdits, ∃ d ∈ found.directives, d.star? = some e.star := by
      intro e he
      rcases List.mem_pair.1 he with rfl | rfl
      · exact @hstar true ["d", "e"] _ (by rw [hmeaning]; simp)
      · exact @hstar false ["type"] _ (by rw [hmeaning]; simp)
    have hlists : ∀ e ∈ scriptEdits, e.Lists := by
      intro e he
      rcases List.mem_pair.1 he with rfl | rfl
      · intro name hname
        rcases List.mem_pair.1 hname with rfl | rfl
        all_goals exact ⟨by decide +kernel, by rw [Listable]; decide⟩
      · intro name hname
        cases hname
    obtain ⟨planned, found', hplan, hscan', hsymbols', houtline⟩ :=
      planned_read_back (by decide +kernel) hline hscan hstars (by decide) hlists 20
    refine ⟨hline, planned, found', hplan, hscan', hsymbols'.trans hsymbols, houtline.trans ?_⟩
    have hedited := congrArg (List.map fun shape => (shape.1, shape.2.listing scriptEdits)) hmeaning
    rw [List.map_map] at hedited
    exact hedited

/-- A unit whose interpreter line leaves a block comment open. The star and the slash behind it close
    that comment, though to the lexer they are a star and the start of another comment. -/
def leftOpenText : String := "#!/*\npub use a::*/**/;\n// */ [\n"

/-- Once a list is in the place of the star the comment ends in front of the bracket. So the first
    line is no interpreter line any more, and the text is no unit. -/
theorem leftOpen_refused :
    withoutMark (withoutMark leftOpenText.toList) = withoutMark leftOpenText.toList ∧
    (∃ found, scan "src/lib.rs" leftOpenText = .ok found ∧ found.directives.map Directive.star? = [some ⟨16, 17⟩]) ∧
    Edit.Lists ⟨⟨16, 17⟩, ["x"]⟩ ∧
    ∃ planned, planEdits leftOpenText [⟨⟨16, 17⟩, ["x"]⟩] 100 = .ok planned ∧
      ∀ found', scan "src/lib.rs" planned.text ≠ .ok found' := by
  have hfound : (scan "src/lib.rs" leftOpenText).toOption.map (fun found => found.directives.map Directive.star?) =
      some [some ⟨16, 17⟩] := by
    decide +kernel
  have hrefused : (scan "src/lib.rs" "#!/*\npub use a::{x}/**/;\n// */ [\n").toOption.isNone = true := by decide +kernel
  refine ⟨by decide +kernel, ?_, ?_, ?_⟩
  · cases hscan : scan "src/lib.rs" leftOpenText with
    | error line =>
      rw [hscan] at hfound
      cases hfound
    | ok found =>
      rw [hscan] at hfound
      exact ⟨found, rfl, Option.some.inj hfound⟩
  · intro name hname
    obtain rfl := List.mem_singleton.1 hname
    exact ⟨by decide +kernel, by rw [Listable]; decide⟩
  · refine ⟨⟨"#!/*\npub use a::{x}/**/;\n// */ [\n", ["{x}"]⟩, ?_, fun found' hfound' => ?_⟩
    · simp only [planEdits, Edit.backwards, List.mergeSort_singleton]
      rfl
    · rw [hfound'] at hrefused
      cases hrefused

end Reexport
