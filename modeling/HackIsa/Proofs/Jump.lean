/-
  HackIsa.Proofs.Jump — a jump and its text.

  A jump text is empty or one of seven mnemonics, so the optional condition it asks for
  and the text determine each other.

  Proved:
  - `ofText_eq_ok_iff` / `ofText_eq_error_iff`: a text is read as the jump that it is the
    text of, and is refused unchanged when it is the text of none.
  - `named_iff`: looking a text up among the names gives the same jump.
  - `toNat_fieldWord`: the signs of a condition take up three bits of their byte.
  - `code_injective`: the field tells jumps, and none, apart.
  - `assemble_eq_ok_iff` / `assemble_eq_error_iff`: the texts that have a field.
  - `names_fields_and_numbers_agree`: name, field and number of every text.
-/

import HackIsa.Instruction
import HackIsa.Proofs.BitField

namespace HackIsa.Jump

/-- The text that asks for a jump, or for none. -/
def textOf : Option Jump → String
  | none => ""
  | some j => j.mnemonic

theorem mnemonic_ne_empty (j : Jump) : j.mnemonic ≠ "" := by
  cases j <;> decide

theorem ofText?_eq_some_iff {s : String} {j : Jump} : Vocabulary.ofText? Jump s = some j ↔ j.mnemonic = s := by
  rw [Vocabulary.ofText?_eq_some_iff, text_eq_mnemonic]

theorem ofText_eq_ok_iff {s : String} {j : Option Jump} : ofText s = .ok j ↔ textOf j = s := by
  unfold ofText
  split
  · rename_i hs
    subst hs
    cases j with
    | none => simp [textOf]
    | some j => simp [textOf, mnemonic_ne_empty]
  · rename_i hs
    split
    · rename_i i hi
      cases j with
      | none => simp [textOf, Ne.symm hs]
      | some j =>
        rw [textOf, ← ofText?_eq_some_iff, hi]
        simp
    · rename_i hn
      cases j with
      | none => simp [textOf, Ne.symm hs]
      | some j =>
        rw [textOf, ← ofText?_eq_some_iff, hn]
        simp

@[simp] theorem ofText_textOf (j : Option Jump) : ofText (textOf j) = .ok j := ofText_eq_ok_iff.mpr rfl

theorem exists_textOf_iff {s : String} : (∃ j, textOf j = s) ↔ s = "" ∨ ∃ j : Jump, j.mnemonic = s := by
  rw [Option.exists]
  exact or_congr_left eq_comm

theorem textOf_injective : Function.Injective textOf := by
  intro i j h
  have hi : ofText (textOf j) = .ok i := ofText_eq_ok_iff.mpr h
  rw [ofText_textOf] at hi
  exact (Except.ok.inj hi).symm

theorem ofText_eq_error_iff {s : String} {e : AssemblyError} :
    ofText s = .error e ↔ (∀ j, textOf j ≠ s) ∧ e = .badJump s := by
  constructor
  · intro h
    refine ⟨fun j hj => ?_, ?_⟩
    · rw [ofText_eq_ok_iff.mpr hj] at h
      cases h
    · unfold ofText at h
      split at h
      · cases h
      · split at h <;> cases h
        rfl
  · intro h
    obtain ⟨hn, rfl⟩ := h
    have hs : s ≠ "" := (hn none).symm
    unfold ofText
    rw [if_neg hs]
    split
    · rename_i j hj
      exact absurd (ofText?_eq_some_iff.mp hj) (hn (some j))
    · rfl

theorem spelled_or_unspelled (s : String) : (∃ j, textOf j = s) ∨ ∀ j, textOf j ≠ s := by
  cases h : ofText s with
  | ok j => exact .inl ⟨j, ofText_eq_ok_iff.mp h⟩
  | error e => exact .inr (ofText_eq_error_iff.mp h).1

/-! ## The looked-up jump -/

theorem lookup_eq_ok_iff {s : String} {j : Jump} : Vocabulary.lookup Jump s = .ok j ↔ j.mnemonic = s := by
  rw [Vocabulary.lookup_eq_ok_iff, text_eq_mnemonic]

theorem exists_lookup_eq_error_iff {s : String} :
    (∃ e, Vocabulary.lookup Jump s = .error e) ↔ ∀ j : Jump, j.mnemonic ≠ s := by
  constructor
  · intro h j hj
    obtain ⟨e, he⟩ := h
    exact (Vocabulary.lookup_eq_error_iff.mp he).1 j ((text_eq_mnemonic j).trans hj)
  · intro hn
    refine ⟨_, Vocabulary.lookup_eq_error_iff.mpr ⟨fun j hj => ?_, rfl⟩⟩
    exact hn j ((text_eq_mnemonic j).symm.trans hj)

/-- The jump `j` that goes with the text `s` when a condition is found by its name: none
    for the empty text, which names no condition. -/
inductive Named (s : String) : Option Jump → Prop
  | none : s = "" → Named s none
  | some (j : Jump) : Vocabulary.lookup Jump s = .ok j → Named s (some j)

theorem named_iff {s : String} {j : Option Jump} : Named s j ↔ textOf j = s := by
  cases j with
  | none =>
    refine ⟨fun h => ?_, fun h => .none h.symm⟩
    cases h with
    | none hs => exact hs.symm
  | some j =>
    refine ⟨fun h => ?_, fun h => .some j ?_⟩
    · cases h with
      | some _ hj => exact lookup_eq_ok_iff.mp hj
    · exact lookup_eq_ok_iff.mpr h

/-! ## The bits of a jump -/

/-- The bits of the jump field; no jump is 0. -/
def code : Option Jump → BitVec 3
  | none => 0#3
  | some j => j.signs.setWidth 3

theorem toNat_fieldWord (j : Option Jump) : (fieldWord j).toNat = (code j).toNat := by
  cases j with
  | none => rfl
  | some j => cases j <;> rfl

theorem field_eq_ofBits (j : Option Jump) : field j = .ofBits (code j) := BitField.ofWord_eq_ofBits (toNat_fieldWord j)

theorem field_some (j : Jump) : field (some j) = ⟨j.number, 3⟩ := by
  cases j <;> rfl

theorem number_bounds (j : Jump) : 1 ≤ j.number ∧ j.number ≤ 7 := by
  cases j <;> decide

theorem code_injective : Function.Injective code := by
  intro i j h
  cases i with
  | none =>
    cases j with
    | none => rfl
    | some j => cases j <;> cases h
  | some i =>
    cases j with
    | none => cases i <;> cases h
    | some j => cases i <;> cases j <;> first | rfl | cases h

theorem field_injective : Function.Injective field := by
  intro i j h
  rw [field_eq_ofBits, field_eq_ofBits] at h
  exact code_injective (BitField.ofBits_injective h)

/-! ## The field of a text -/

@[simp] theorem assemble_textOf (j : Option Jump) : assemble (textOf j) = .ok (field j) := by
  simp only [assemble, ofText_textOf]; rfl

theorem assemble_of_unspelled {s : String} (h : ∀ j, textOf j ≠ s) : assemble s = .error (.badJump s) := by
  simp only [assemble, ofText_eq_error_iff.mpr ⟨h, rfl⟩]; rfl

theorem assemble_eq_ok_iff {s : String} {f : BitField} : assemble s = .ok f ↔ ∃ j, textOf j = s ∧ f = field j := by
  constructor
  · intro h
    rcases spelled_or_unspelled s with ⟨j, rfl⟩ | hn
    · rw [assemble_textOf] at h
      cases h
      exact ⟨j, rfl, rfl⟩
    · rw [assemble_of_unspelled hn] at h
      cases h
  · intro h
    obtain ⟨j, rfl, rfl⟩ := h
    exact assemble_textOf j

theorem assemble_eq_error_iff {s : String} {e : AssemblyError} :
    assemble s = .error e ↔ (∀ j, textOf j ≠ s) ∧ e = .badJump s := by
  constructor
  · intro h
    rcases spelled_or_unspelled s with ⟨j, rfl⟩ | hn
    · rw [assemble_textOf] at h
      cases h
    · rw [assemble_of_unspelled hn] at h
      cases h
      exact ⟨hn, rfl⟩
  · intro h
    obtain ⟨hn, rfl⟩ := h
    exact assemble_of_unspelled hn

theorem assemble_inj {s t : String} {f : BitField} (hs : assemble s = .ok f) (ht : assemble t = .ok f) : s = t := by
  obtain ⟨i, rfl, hi⟩ := assemble_eq_ok_iff.mp hs
  obtain ⟨j, rfl, hj⟩ := assemble_eq_ok_iff.mp ht
  rw [field_injective (hi.symm.trans hj)]

/-- A mnemonic names its condition, whose number from 1 to 7 is the value of the text's field;
    the empty text has the field 0 and names none, and every other text is refused. -/
theorem names_fields_and_numbers_agree (s : String) :
    (∀ j, Vocabulary.lookup Jump s = .ok j ↔ j.mnemonic = s) ∧
      (∀ j : Jump, Vocabulary.text j = j.mnemonic ∧ 1 ≤ j.number ∧ j.number ≤ 7) ∧
      (∀ f, assemble s = .ok f ↔ s = "" ∧ f = ⟨0, 3⟩ ∨ ∃ j : Jump, j.mnemonic = s ∧ f = ⟨j.number, 3⟩) ∧
      (∀ e, assemble s = .error e ↔ ¬ (s = "" ∨ ∃ j : Jump, j.mnemonic = s) ∧ e = .badJump s) ∧
      (∀ t f, assemble s = .ok f → assemble t = .ok f → s = t) ∧
      ((∃ f, assemble s = .ok f) ∧ (∃ e, Vocabulary.lookup Jump s = .error e) ↔ s = "") := by
  refine ⟨fun j => lookup_eq_ok_iff, fun j => ⟨text_eq_mnemonic j, j.number_bounds⟩, ?accepted, ?refused,
    fun t f hs ht => assemble_inj hs ht, ?unnamed⟩
  case accepted =>
    intro f
    rw [assemble_eq_ok_iff, Option.exists]
    simp only [field_some]
    exact or_congr_left (and_congr_left fun _ => eq_comm)
  case refused =>
    intro e
    rw [assemble_eq_error_iff, ← exists_textOf_iff, not_exists]
  case unnamed =>
    rw [exists_lookup_eq_error_iff]
    constructor
    · intro h
      obtain ⟨⟨f, hf⟩, hn⟩ := h
      obtain ⟨j, hj, -⟩ := assemble_eq_ok_iff.mp hf
      cases j with
      | none => exact hj.symm
      | some j => exact absurd hj (hn j)
    · intro hs
      rw [hs]
      exact ⟨⟨_, assemble_textOf none⟩, mnemonic_ne_empty⟩

example : (Vocabulary.all : List Jump).map (fun j => (j.mnemonic, j.number)) =
    [("JGT", 1), ("JEQ", 2), ("JGE", 3), ("JLT", 4), ("JNE", 5), ("JLE", 6), ("JMP", 7)] := by decide

end HackIsa.Jump
