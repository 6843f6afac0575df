/-
  HackIsa.Proofs.Instruction.Meaning — what a word does, and which texts have it.

  The machine reads a word by the places of its fields, so on a packed word it finds the
  control bits, the memory bit, the registers to write and the jump bits that were packed
  (`control_pack` and its siblings). What these do is then the theory of each field.

  Each field of a word can be told from the others, so two instructions share a word only
  if they share all three fields: the dest texts name the same registers, the jump texts
  are the same, and the comp texts are the same or mirror images of each other.

  Proved:
  - `jumps_pack`: the jump bits are the signs on which the condition holds.
  - `assembled_word_executes_texts`: on all register contents the word of three texts puts
    out the value of the comp text, writes the registers of the dest text and jumps when
    the jump text says so.
  - `words_share_only_aliases`: no other texts share a word.
-/

import HackIsa.Proofs.Comp.Mirror
import HackIsa.Proofs.Instruction.Assembly

namespace HackIsa

namespace Word

variable (bits : BitVec 7) (dest jump : BitVec 3)

theorem memoryBit_pack (memory : Bool) (k : Alu.Control) :
    (pack (BitVec.ofBool memory ++ k) dest jump).memoryBit = memory := by
  simp only [memoryBit, getLsbD_pack, BitVec.getLsbD_append, BitVec.getLsbD_ofBool, Nat.reduceLT, if_false, if_true,
    Nat.reduceSub, decide_true, Bool.true_and]

theorem control_pack (memory : Bool) (k : Alu.Control) :
    (pack (BitVec.ofBool memory ++ k) dest jump).control = k := by
  apply BitVec.eq_of_getLsbD_eq
  intro i hi
  rw [control, BitVec.getLsbD_extractLsb', getLsbD_pack, if_neg (by omega), if_neg (by omega), if_pos (by omega),
    BitVec.getLsbD_append]
  simp [hi]

theorem writes_pack (d : Dest) : (pack bits d.bits jump).writes = d := by
  have hd : d.bits.getLsbD 2 = d.a ∧ d.bits.getLsbD 1 = d.d ∧ d.bits.getLsbD 0 = d.m := by
    rcases d with ⟨a, d, m⟩
    cases a <;> cases d <;> cases m <;> decide
  simp only [writes, getLsbD_pack, Nat.reduceLT, if_true, if_false, Nat.reduceSub, hd]

/-- A condition holds of a number exactly when the bit for the number's sign is set. -/
theorem jumps_pack (j : Option Jump) (out : Int) :
    (pack bits dest (Jump.code j)).Jumps out ↔ ∃ i, j = some i ∧ i.Holds out := by
  have hb : (pack bits dest (Jump.code j)).Jumps out ↔ (Jump.code j).getLsbD 2 = true ∧ out < 0 ∨
      (Jump.code j).getLsbD 1 = true ∧ out = 0 ∨ (Jump.code j).getLsbD 0 = true ∧ 0 < out := by
    simp only [Jumps, getLsbD_pack, Nat.reduceLT, if_true]
  rw [hb]
  cases j with
  | none => simp [Jump.code]
  | some i => cases i <;> simp [Jump.code, Jump.signs, Jump.Holds] <;> omega

theorem output_pack {c : Comp} {bits : BitVec 7} (h : c.bits? = some bits) (r : Registers) :
    (pack bits dest jump).output r = c.value r := by
  obtain ⟨k, hk, rfl⟩ := Comp.bits?_eq_some_iff.mp h
  rw [output, control_pack, memoryBit_pack, Comp.output_control hk]

end Word

namespace Instruction

/-- Whatever the registers hold, the word puts out the value that `comp` spells, writes the
    registers that `dest` names and jumps exactly when the signed result meets `jump`. -/
theorem assembled_word_executes_texts {dest comp jump : String} {w : Word} (h : assemble dest comp jump = .ok w)
    (r : Registers) :
    ((∃ c, Comp.text c = comp) ∧ ∀ c, Comp.text c = comp → w.output r = c.value r) ∧
      ((w.writes.a = true ↔ 'A' ∈ dest.toList) ∧ (w.writes.d = true ↔ 'D' ∈ dest.toList) ∧
        (w.writes.m = true ↔ 'M' ∈ dest.toList)) ∧
      (w.Jumps (w.output r).toInt ↔ ∃ j : Jump, j.mnemonic = jump ∧ j.Holds (w.output r).toInt) := by
  have out := assemble_outcome dest comp jump
  rw [h] at out
  cases out with
  | word c j bits hc hj hb =>
    refine ⟨⟨⟨c, hc⟩, fun d hd => ?_⟩, ?_, ?_⟩
    · rw [Word.output_pack _ _ hb, Comp.text_injective (hd.trans hc.symm)]
    · simp only [Word.writes_pack, Dest.ofText_eq, List.contains_iff_mem, and_self]
    · rw [Word.jumps_pack]
      refine ⟨fun hs => ?_, fun hs => ?_⟩
      · obtain ⟨i, rfl, ho⟩ := hs
        exact ⟨i, hj, ho⟩
      · obtain ⟨i, hi, ho⟩ := hs
        have hij : Jump.textOf (some i) = Jump.textOf j := hi.trans hj.symm
        exact ⟨i, (Jump.textOf_injective hij).symm, ho⟩

/-- Taking 1 from the least number wraps to the greatest one, which is positive: a jump. -/
theorem least_minus_one_executes :
    assemble "AM" "M-D" "JGT" = .ok 0xF1E9#16 ∧
      ((∃ c, Comp.text c = "M-D") ∧
          ∀ c, Comp.text c = "M-D" → Word.output 0xF1E9#16 ⟨0, 1, 0x8000⟩ = c.value ⟨0, 1, 0x8000⟩) ∧
        (((Word.writes 0xF1E9#16).a = true ↔ 'A' ∈ "AM".toList) ∧
          ((Word.writes 0xF1E9#16).d = true ↔ 'D' ∈ "AM".toList) ∧
          ((Word.writes 0xF1E9#16).m = true ↔ 'M' ∈ "AM".toList)) ∧
        (Word.Jumps 0xF1E9#16 (Word.output 0xF1E9#16 ⟨0, 1, 0x8000⟩).toInt ↔
          ∃ j : Jump, j.mnemonic = "JGT" ∧ j.Holds (Word.output 0xF1E9#16 ⟨0, 1, 0x8000⟩).toInt) :=
  have h : assemble "AM" "M-D" "JGT" = .ok 0xF1E9#16 := rfl
  ⟨h, assembled_word_executes_texts h ⟨0, 1, 0x8000⟩⟩

/-! ## Different texts with one word -/

/-- Only dest texts with the same register letters, and comp texts without signs that are each
    the other read backwards, have the same word. -/
theorem words_share_only_aliases {d₁ c₁ j₁ d₂ c₂ j₂ : String} {w₁ w₂ : Word} (h₁ : assemble d₁ c₁ j₁ = .ok w₁)
    (h₂ : assemble d₂ c₂ j₂ = .ok w₂) :
    w₁ = w₂ ↔ (∀ r ∈ ['A', 'D', 'M'], (r ∈ d₁.toList ↔ r ∈ d₂.toList)) ∧ j₁ = j₂ ∧
      (c₁ = c₂ ∨ c₂.toList = c₁.toList.reverse ∧ '-' ∉ c₁.toList ∧ '!' ∉ c₁.toList) := by
  have out₁ := assemble_eq_iff.mp h₁
  have out₂ := assemble_eq_iff.mp h₂
  cases out₁ with
  | word c j bits hc hj hb =>
    cases out₂ with
    | word c' j' bits' hc' hj' hb' =>
      have hdest : (Dest.ofText d₁).bits = (Dest.ofText d₂).bits ↔
          ∀ r ∈ ['A', 'D', 'M'], (r ∈ d₁.toList ↔ r ∈ d₂.toList) := by
        rw [Dest.bits_injective.eq_iff, Dest.ofText_eq_iff]
      have hjump : Jump.code j = Jump.code j' ↔ j₁ = j₂ := by
        rw [Jump.code_injective.eq_iff, ← hj, ← hj', Jump.textOf_injective.eq_iff]
      have hcomp : bits = bits' ↔ c₁ = c₂ ∨ c₂.toList = c₁.toList.reverse ∧ '-' ∉ c₁.toList ∧ '!' ∉ c₁.toList := by
        rw [Comp.bits?_inj hb hb', Comp.alias_iff, ← hc, ← hc', Comp.text_injective.eq_iff, Comp.toList_text,
          Comp.toList_text, eq_comm]
      rw [Word.pack_inj, hdest, hjump, hcomp, and_comm, and_assoc]

/-- Foreign and repeated letters of a dest text and the order of a bitwise and do not show in
    the word. -/
theorem both_orders_share_word :
    assemble "MDX" "D&M" "JNE" = .ok 0xF01D#16 ∧ assemble "DMM" "M&D" "JNE" = .ok 0xF01D#16 ∧
      (0xF01D#16 = 0xF01D#16 ↔ (∀ r ∈ ['A', 'D', 'M'], (r ∈ "MDX".toList ↔ r ∈ "DMM".toList)) ∧ "JNE" = "JNE" ∧
        ("D&M" = "M&D" ∨ "M&D".toList = "D&M".toList.reverse ∧ '-' ∉ "D&M".toList ∧ '!' ∉ "D&M".toList)) :=
  have h₁ : assemble "MDX" "D&M" "JNE" = .ok 0xF01D#16 := rfl
  have h₂ : assemble "DMM" "M&D" "JNE" = .ok 0xF01D#16 := rfl
  ⟨h₁, h₂, words_share_only_aliases h₁ h₂⟩

end Instruction

end HackIsa
