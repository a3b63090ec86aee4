import Reexport.Proofs.Settlement

/-!
# The order of names

Lists of names are in character order, each name once. That is the order of their
UTF-8 bytes as well: the first byte of a character grows with the number of its
bytes, and among characters of one length the bytes are digits of the code point.

Results:

* `bytes_lt_bytes`: what comes first by characters comes first by bytes.
* `sortedNames_bytes`: a set of names is strictly increasing in byte order.
-/

namespace Reexport

/-- The bytes of a text in UTF-8. -/
def bytes (s : String) : List UInt8 := s.toUTF8.data.toList

theorem bytes_eq (s : String) : bytes s = s.toList.flatMap String.utf8EncodeChar := by
  have htext : s.toUTF8 = s.toList.utf8Encode := by
    conv => lhs; rw [← String.ofList_toList (s := s)]
    rfl
  rw [bytes, htext, List.utf8Encode, List.data_toByteArray]

/-! ## Characters -/

theorem ofNat_lt_ofNat_iff {m n : Nat} (hm : m < 256) (hn : n < 256) :
    UInt8.ofNat m < UInt8.ofNat n ↔ m < n := by
  rw [UInt8.lt_iff_toNat_lt, UInt8.toNat_ofNat', UInt8.toNat_ofNat']
  omega

theorem ofNat_eq_ofNat_iff {m n : Nat} (hm : m < 256) (hn : n < 256) :
    UInt8.ofNat m = UInt8.ofNat n ↔ m = n := by
  rw [← UInt8.toNat_inj, UInt8.toNat_ofNat', UInt8.toNat_ofNat']
  omega

/-- The bytes of a smaller character come first, whatever follows. -/
theorem utf8EncodeChar_lt {c d : Char} (h : c < d) (as bs : List UInt8) :
    String.utf8EncodeChar c ++ as < String.utf8EncodeChar d ++ bs := by
  have hlt : c.val.toNat < d.val.toNat := h
  have hmax : d.val.toNat < 0x110000 := by
    have hvalid := d.valid
    simp only [UInt32.isValidChar, Nat.isValidChar] at hvalid
    omega
  have hdiv : ∀ n : Nat, n / 4096 = n / 64 / 64 ∧ n / 262144 = n / 64 / 64 / 64 := by
    intro n
    simp only [Nat.div_div_eq_div_mul]
    trivial
  unfold String.utf8EncodeChar
  generalize c.val.toNat = v at *
  generalize d.val.toNat = w at *
  simp only [fun n => (hdiv n).1, fun n => (hdiv n).2]
  -- where the lengths differ the wrong way the code points do too; else compare byte by byte
  split_ifs <;> first
    | omega
    | (simp only [List.cons_append, List.nil_append, List.cons_lt_cons_iff]
       simp (disch := omega) only [ofNat_lt_ofNat_iff, ofNat_eq_ofNat_iff]
       omega)

/-! ## Texts -/

theorem append_lt_append {as bs : List UInt8} (h : as < bs) (front : List UInt8) :
    front ++ as < front ++ bs := by
  induction front with
  | nil => exact h
  | cons b rest ih => exact List.cons_lt_cons_iff.2 (.inr ⟨rfl, ih⟩)

theorem flatMap_utf8EncodeChar_lt : ∀ {cs ds : List Char}, cs < ds →
    cs.flatMap String.utf8EncodeChar < ds.flatMap String.utf8EncodeChar := by
  intro cs
  induction cs with
  | nil =>
    intro ds h
    cases ds with
    | nil => exact absurd h (List.lt_irrefl [])
    | cons d ds =>
      rw [List.flatMap_cons, List.flatMap_nil]
      cases hbytes : String.utf8EncodeChar d with
      | nil => exact absurd hbytes String.utf8EncodeChar_ne_nil
      | cons b rest => exact List.nil_lt_cons _ _
  | cons c cs ih =>
    intro ds h
    cases ds with
    | nil => exact absurd h (List.not_lt_nil _)
    | cons d ds =>
      rw [List.flatMap_cons, List.flatMap_cons]
      rcases List.cons_lt_cons_iff.1 h with hlt | ⟨rfl, hlt⟩
      · exact utf8EncodeChar_lt hlt _ _
      · exact append_lt_append (ih hlt) _

/-- What comes first by characters comes first by bytes. -/
theorem bytes_lt_bytes {s t : String} (h : s < t) : bytes s < bytes t := by
  rw [bytes_eq, bytes_eq]
  exact flatMap_utf8EncodeChar_lt h

/-! ## Sets of names -/

theorem insertName_pairwise (name : String) {names : List String} (h : names.Pairwise (· < ·)) :
    (insertName name names).Pairwise (· < ·) := by
  induction names with
  | nil => exact List.pairwise_singleton _ _
  | cons first rest ih =>
    obtain ⟨hfirst, hrest⟩ := List.pairwise_cons.1 h
    rw [insertName]
    split_ifs with hlt heq
    · refine List.pairwise_cons.2 ⟨?_, h⟩
      exact List.forall_mem_cons.2 ⟨hlt, fun other hother => String.lt_trans hlt (hfirst other hother)⟩
    · exact h
    · have hgt : first < name := Std.lt_of_le_of_ne hlt fun hsame => heq hsame.symm
      refine List.pairwise_cons.2 ⟨fun other hother => ?_, ih hrest⟩
      rcases (mem_insertName name other rest).1 hother with rfl | hother
      · exact hgt
      · exact hfirst other hother

theorem sortedNames_pairwise (names : List String) : (sortedNames names).Pairwise (· < ·) := by
  induction names with
  | nil => exact List.Pairwise.nil
  | cons name rest ih => exact insertName_pairwise name ih

theorem sortedNames_nodup (names : List String) : (sortedNames names).Nodup := by
  refine (sortedNames_pairwise names).imp ?_
  rintro a b hlt rfl
  exact String.lt_irrefl a hlt

/-- A set of names, or a part of it, is strictly increasing in byte order. -/
theorem sortedNames_bytes {part names : List String} (h : part.Sublist (sortedNames names)) :
    part.Pairwise fun a b => bytes a < bytes b :=
  ((sortedNames_pairwise names).sublist h).imp fun hab => bytes_lt_bytes hab

end Reexport
