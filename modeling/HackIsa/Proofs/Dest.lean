/-
  HackIsa.Proofs.Dest — a destination is the set of register letters in its text.

  Proved:
  - `foldl_insert`: reading on from any destination adds the letters still to come and
    takes none away.
  - `ofText_eq` / `ofText_eq_iff`: the registers named by a text are those whose letter
    occurs in it, so texts with the same letters are the same destination.
  - `toNat_fieldWord`: the masks of the registers make up one bit for each of them.
  - `bits_injective`: the field tells destinations apart.
  - `ofText_append` / `bits_union`: a text read in two pieces names the registers of
    both, and their bits are joined by an or.
  - `field_holds_named_registers`: the field of a text, bit for bit, and of two texts.
-/

import HackIsa.Instruction
import HackIsa.Proofs.BitField

namespace HackIsa.Dest

theorem insert_eq (dest : Dest) (c : Char) :
    dest.insert c = ⟨dest.a || 'A' == c, dest.d || 'D' == c, dest.m || 'M' == c⟩ := by
  unfold insert
  split
  · simp
  · simp
  · simp
  · rename_i hA hD hM
    simp [beq_false_of_ne (Ne.symm hA), beq_false_of_ne (Ne.symm hD), beq_false_of_ne (Ne.symm hM)]

/-- A register once named stays named, whatever letters follow. -/
theorem foldl_insert (cs : List Char) (dest : Dest) :
    cs.foldl insert dest =
      ⟨dest.a || cs.contains 'A', dest.d || cs.contains 'D', dest.m || cs.contains 'M'⟩ := by
  induction cs generalizing dest with
  | nil => simp
  | cons c cs ih => simp only [List.foldl_cons, ih, insert_eq, List.contains_cons, Bool.or_assoc]

theorem ofText_eq (s : String) :
    ofText s = ⟨s.toList.contains 'A', s.toList.contains 'D', s.toList.contains 'M'⟩ := by
  rw [ofText, foldl_insert]
  simp only [Bool.false_or]

theorem ofText_eq_iff {s t : String} :
    ofText s = ofText t ↔ ∀ r ∈ ['A', 'D', 'M'], (r ∈ s.toList ↔ r ∈ t.toList) := by
  simp [ofText_eq]

/-! ## Bits -/

/-- One bit for each register, `A` over `D` over `M`. -/
def bits (dest : Dest) : BitVec 3 := BitVec.ofBool dest.a ++ BitVec.ofBool dest.d ++ BitVec.ofBool dest.m

theorem toNat_fieldWord (dest : Dest) : dest.fieldWord.toNat = dest.bits.toNat := by
  rcases dest with ⟨a, d, m⟩
  cases a <;> cases d <;> cases m <;> decide

theorem field_eq_ofBits (dest : Dest) : dest.field = .ofBits dest.bits :=
  BitField.ofWord_eq_ofBits dest.toNat_fieldWord

theorem bits_injective : Function.Injective bits := by
  intro d e h
  obtain ⟨had, hm⟩ := Binary.append_inj.mp h
  obtain ⟨ha, hd⟩ := Binary.append_inj.mp had
  rw [BitVec.ofBool_eq_iff_eq] at ha hd hm
  cases d
  cases e
  cases ha
  cases hd
  cases hm
  rfl

theorem value_field (dest : Dest) : dest.field.value = 4 * dest.a.toNat + 2 * dest.d.toNat + dest.m.toNat := by
  rw [field_eq_ofBits, BitField.value_ofBits, bits, Binary.toNat_append, Binary.toNat_append, BitVec.toNat_ofBool,
    BitVec.toNat_ofBool, BitVec.toNat_ofBool]
  omega

theorem assemble_eq_ofBits (s : String) : assemble s = .ofBits (ofText s).bits := field_eq_ofBits _

theorem field_injective : Function.Injective field := by
  intro d e h
  rw [field_eq_ofBits, field_eq_ofBits] at h
  exact bits_injective (BitField.ofBits_injective h)

theorem assemble_eq_iff {s t : String} :
    assemble s = assemble t ↔ ∀ r ∈ ['A', 'D', 'M'], (r ∈ s.toList ↔ r ∈ t.toList) := by
  rw [← ofText_eq_iff]
  exact field_injective.eq_iff

/-! ## Texts in two pieces -/

/-- The registers that one of the two destinations names. -/
def union (dest dest' : Dest) : Dest := ⟨dest.a || dest'.a, dest.d || dest'.d, dest.m || dest'.m⟩

/-- Reading a text adds what it names to what was named before. -/
theorem foldl_insert_eq_union (s : String) (dest : Dest) : s.toList.foldl insert dest = dest.union (ofText s) := by
  rw [foldl_insert, ofText_eq, union]

theorem ofText_append (s t : String) : ofText (s ++ t) = (ofText s).union (ofText t) := by
  rw [ofText, String.toList_append, List.foldl_append, foldl_insert_eq_union, ← ofText]

theorem bits_union (dest dest' : Dest) : (dest.union dest').bits = dest.bits ||| dest'.bits := by
  calc (dest.union dest').bits
    _ = (BitVec.ofBool dest.a ||| BitVec.ofBool dest'.a) ++ (BitVec.ofBool dest.d ||| BitVec.ofBool dest'.d) ++
          (BitVec.ofBool dest.m ||| BitVec.ofBool dest'.m) := by
      rw [bits, union, BitVec.ofBool_or_ofBool, BitVec.ofBool_or_ofBool, BitVec.ofBool_or_ofBool]
    _ = dest.bits ||| dest'.bits := by
      rw [← BitVec.or_append, ← BitVec.or_append]
      rfl

theorem value_assemble_append (s t : String) :
    (assemble (s ++ t)).value = (assemble s).value ||| (assemble t).value := by
  have hv : ∀ dest : Dest, dest.field.value = dest.bits.toNat := by
    intro dest
    rw [field_eq_ofBits, BitField.value_ofBits]
  rw [assemble, assemble, assemble, ofText_append, hv, hv, hv, bits_union, BitVec.toNat_or]

/-- The field of a dest text has a bit for each of `A`, `D` and `M`, set exactly when the letter
    occurs in the text. -/
theorem field_holds_named_registers (s t : String) :
    ((assemble s).width = 3 ∧
        (assemble s).value =
          4 * (if 'A' ∈ s.toList then 1 else 0) + 2 * (if 'D' ∈ s.toList then 1 else 0) +
            (if 'M' ∈ s.toList then 1 else 0)) ∧
      (((ofText s).a = true ↔ 'A' ∈ s.toList) ∧ ((ofText s).d = true ↔ 'D' ∈ s.toList) ∧
        ((ofText s).m = true ↔ 'M' ∈ s.toList)) ∧
      (assemble s = assemble t ↔ ∀ r ∈ ['A', 'D', 'M'], (r ∈ s.toList ↔ r ∈ t.toList)) ∧
      (assemble (s ++ t)).value = (assemble s).value ||| (assemble t).value := by
  have flags : ((ofText s).a = true ↔ 'A' ∈ s.toList) ∧ ((ofText s).d = true ↔ 'D' ∈ s.toList) ∧
      ((ofText s).m = true ↔ 'M' ∈ s.toList) := by
    simp only [ofText_eq, List.contains_iff_mem, and_self]
  have bit : ∀ {flag : Bool} {c : Char}, (flag = true ↔ c ∈ s.toList) → flag.toNat = if c ∈ s.toList then 1 else 0 := by
    intro flag c h
    by_cases hc : c ∈ s.toList
    · rw [if_pos hc, h.mpr hc, Bool.toNat_true]
    · rw [if_neg hc, Bool.eq_false_iff.mpr (mt h.mp hc), Bool.toNat_false]
  obtain ⟨ha, hd, hm⟩ := flags
  refine ⟨⟨rfl, ?_⟩, ⟨ha, hd, hm⟩, assemble_eq_iff, value_assemble_append s t⟩
  rw [assemble, value_field, bit ha, bit hd, bit hm]

example : assemble "DéDA" = ⟨0b110, 3⟩ := rfl

end HackIsa.Dest
