/-
  HackIsa.Proofs.Instruction.Layout — the three fields of an instruction in its word.

  The word is built by shifting each field into place and joining them bit by bit. Here
  it is shown to be the fields one after the other, `111a cccc ccdd djjj` (`pack`), so
  every later fact about a word is about appended bit vectors. Each place ends where the
  next one up begins: a field leaves nothing outside the word and covers nothing of the
  others, and joining the parts is adding them.

  Proved:
  - `pack_inj`: a word tells its fields apart.
  - `or_fields`: shifting and joining is appending.
  - `getLsbD_pack` / `toNat_pack`: the word bit by bit, and as a number.
  - `holds_pack`: each field is read back from its place, and the word is the sum of its
    fields.
  - `text_pack`: the digits of the word are those of its fields, one after the other.
  - `joins_pack`: no part leaves the word at its place or meets another.
  - `word_of_bits` / `word_of_no_bits`: an instruction has a word exactly when its
    computation has bits, and then it is the packed one.
  - `joins_of_word`: the word of an instruction is made of its three fields.
-/

import HackIsa.Proofs.Comp.Encoding
import HackIsa.Proofs.Dest
import HackIsa.Proofs.Jump

namespace HackIsa

theorem Instruction.opcode_eq_append : opcode = 0b111#3 ++ 0#13 := by decide

namespace Word

variable (comp : BitVec 7) (dest jump : BitVec 3)

/-- `111a cccc ccdd djjj`. -/
def pack : Word := 0b111#3 ++ comp ++ dest ++ jump

variable {comp dest jump} in
theorem pack_inj {comp' : BitVec 7} {dest' jump' : BitVec 3} :
    pack comp dest jump = pack comp' dest' jump' ↔ comp = comp' ∧ dest = dest' ∧ jump = jump' := by
  refine ⟨fun h => ?_, fun ⟨hc, hd, hj⟩ => by rw [hc, hd, hj]⟩
  obtain ⟨hcd, hj⟩ := Binary.append_inj.mp h
  obtain ⟨hc, hd⟩ := Binary.append_inj.mp hcd
  exact ⟨(Binary.append_inj.mp hc).2, hd, hj⟩

theorem getLsbD_pack (i : Nat) : (pack comp dest jump).getLsbD i =
    if i < 3 then jump.getLsbD i
    else if i < 6 then dest.getLsbD (i - 3)
    else if i < 13 then comp.getLsbD (i - 6)
    else (0b111#3).getLsbD (i - 13) := by
  simp only [pack, BitVec.getLsbD_append]
  by_cases h₁ : i < 3
  · simp [h₁]
  by_cases h₂ : i < 6
  · simp [h₁, h₂, show i - 3 < 3 by omega]
  have h₂' : ¬ i - 3 < 3 := by omega
  have e₂ : i - 3 - 3 = i - 6 := by omega
  by_cases h₃ : i < 13
  · simp [h₁, h₂, h₃, h₂', e₂, show i - 6 < 7 by omega]
  · simp [h₁, h₂, h₃, h₂', e₂, show ¬ i - 6 < 7 by omega, show i - 6 - 7 = i - 13 by omega]

/-- No field reaches into the place of another, so joining the shifted fields loses nothing. -/
theorem or_fields :
    Instruction.opcode ||| (BitField.ofBits comp).toWord <<< 6 ||| (BitField.ofBits dest).toWord <<< 3 |||
      (BitField.ofBits jump).toWord = pack comp dest jump := by
  apply BitVec.eq_of_getLsbD_eq
  intro i hi
  simp only [getLsbD_pack, Instruction.opcode_eq_append, BitField.toWord_ofBits, BitVec.getLsbD_or,
    BitVec.getLsbD_shiftLeft, BitVec.getLsbD_setWidth, BitVec.getLsbD_append]
  by_cases h₁ : i < 3
  · simp [h₁, hi, show i < 6 by omega, show i < 13 by omega]
  rw [BitVec.getLsbD_of_ge jump i (by omega)]
  by_cases h₂ : i < 6
  · simp [h₁, h₂, hi, show i < 13 by omega, show i - 3 < 16 by omega]
  rw [BitVec.getLsbD_of_ge dest (i - 3) (by omega)]
  by_cases h₃ : i < 13
  · simp [h₁, h₂, h₃, hi, show i - 6 < 16 by omega]
  rw [BitVec.getLsbD_of_ge comp (i - 6) (by omega)]
  simp [h₁, h₂, h₃, hi]

/-! ## The word as a number -/

theorem toNat_pack :
    (pack comp dest jump).toNat = 0xE000 + 64 * comp.toNat + 8 * dest.toNat + jump.toNat := by
  simp only [pack, Binary.toNat_append, BitVec.toNat_ofNat]
  omega

/-- The `n` bits of `w` from bit `i` on, cut out with a mask. -/
theorem toNat_shiftRight_and_mask (w : Word) (i n : Nat) (hn : n < 16) :
    (w >>> i &&& BitVec.ofNat 16 (1 <<< n - 1)).toNat = w.toNat >>> i % 1 <<< n := by
  have hm : 2 ^ n - 1 < 2 ^ 16 := by
    have := Nat.pow_lt_pow_right (by decide : 1 < 2) hn
    omega
  rw [Nat.one_shiftLeft, BitVec.toNat_and, BitVec.toNat_ushiftRight, BitVec.toNat_ofNat, Nat.mod_eq_of_lt hm,
    Nat.and_two_pow_sub_one_eq_mod]

/-- `w` is the opcode with the fields `f`, `g` and `h` of comp, dest and jump, each in its
    place and none over another. -/
structure Holds (w : Word) (f g h : BitField) : Prop where
  opcode : w >>> 13 = 7
  comp : (w >>> 6 &&& 127).toNat = f.value
  dest : (w >>> 3 &&& 7).toNat = g.value
  jump : (w &&& 7).toNat = h.value
  sum : w.toNat = 0xE000 + 64 * f.value + 8 * g.value + h.value

theorem holds_pack : Holds (pack comp dest jump) (.ofBits comp) (.ofBits dest) (.ofBits jump) := by
  have hc := comp.isLt
  have hd := dest.isLt
  have hj := jump.isLt
  have hw := toNat_pack comp dest jump
  constructor
  case opcode =>
    apply BitVec.eq_of_toNat_eq
    rw [BitVec.toNat_ushiftRight, Nat.shiftRight_eq_div_pow, hw]
    show _ = 7
    omega
  case comp =>
    refine (toNat_shiftRight_and_mask _ 6 7 (by decide)).trans ?_
    rw [hw, BitField.value_ofBits, Nat.shiftRight_eq_div_pow, Nat.one_shiftLeft]
    omega
  case dest =>
    refine (toNat_shiftRight_and_mask _ 3 3 (by decide)).trans ?_
    rw [hw, BitField.value_ofBits, Nat.shiftRight_eq_div_pow, Nat.one_shiftLeft]
    omega
  case jump =>
    have h₀ : pack comp dest jump >>> 0 = pack comp dest jump := BitVec.ushiftRight_zero _
    rw [← h₀]
    refine (toNat_shiftRight_and_mask _ 0 3 (by decide)).trans ?_
    rw [hw, BitField.value_ofBits, Nat.shiftRight_eq_div_pow, Nat.one_shiftLeft]
    omega
  case sum => exact hw

/-! ## The word written out -/

theorem text_pack : (pack comp dest jump).text =
    "111" ++ Binary.text 7 comp.toNat ++ Binary.text 3 dest.toNat ++ Binary.text 3 jump.toNat := by
  have h : Binary.text (3 + 7 + 3 + 3) (0b111#3 ++ comp ++ dest ++ jump).toNat =
      Binary.text 3 (0b111#3).toNat ++ Binary.text 7 comp.toNat ++ Binary.text 3 dest.toNat ++
        Binary.text 3 jump.toNat := by
    rw [Binary.text_append, Binary.text_append, Binary.text_append]
  exact h

end Word

/-! ## Parts in their places -/

namespace BitField

theorem shiftLeft_value_lt {f : BitField} {width n : Nat} (h : f.value < 1 <<< width) :
    f.value <<< n < 1 <<< (width + n) := by
  rw [Nat.one_shiftLeft] at h ⊢
  rw [Nat.shiftLeft_eq, Nat.pow_add]
  exact Nat.mul_lt_mul_of_pos_right h (Nat.two_pow_pos n)

theorem toNat_toWord {f : BitField} (h : f.value < 1 <<< 16) : f.toWord.toNat = f.value := by
  rw [toWord, BitVec.toNat_ofNat]
  exact Nat.mod_eq_of_lt h

/-- A field that stays within the word when it is moved up loses none of its value. -/
theorem toNat_shiftLeft_toWord {f : BitField} {n : Nat} (h : f.value <<< n < 1 <<< 16) :
    (f.toWord <<< n).toNat = f.value <<< n := by
  have hle : f.value ≤ f.value <<< n := by
    rw [Nat.shiftLeft_eq]
    exact Nat.le_mul_of_pos_right _ (Nat.two_pow_pos n)
  rw [BitVec.toNat_shiftLeft, toNat_toWord (Nat.lt_of_le_of_lt hle h)]
  exact Nat.mod_eq_of_lt h

/-- The place of a field ends `width` bits up from where it begins. -/
theorem toNat_shiftLeft_toWord_lt {f : BitField} {width n : Nat} (h : f.value < 1 <<< width)
    (hn : 1 <<< (width + n) ≤ 1 <<< 16) : (f.toWord <<< n).toNat < 1 <<< (width + n) := by
  have hlt : f.value <<< n < 1 <<< (width + n) := shiftLeft_value_lt h
  rw [toNat_shiftLeft_toWord (Nat.lt_of_lt_of_le hlt hn)]
  exact hlt

end BitField

namespace Word

theorem shiftLeft_and_eq_zero (x : Word) {y : Word} {n : Nat} (h : y.toNat < 1 <<< n) : x <<< n &&& y = 0 := by
  rw [Nat.one_shiftLeft] at h
  apply BitVec.eq_of_getLsbD_eq
  intro i hi
  rw [BitVec.getLsbD_and, BitVec.getLsbD_shiftLeft]
  by_cases hn : i < n
  · simp [hn]
  · have hlt : y.toNat < 2 ^ i := Nat.lt_of_lt_of_le h (Nat.pow_le_pow_right (by decide) (by omega))
    rw [← BitVec.testBit_toNat y, Nat.testBit_lt_two_pow hlt]
    simp

/-- The opcode and the fields of comp, dest and jump, each moved up to its place. -/
def parts (f g h : BitField) : List Word := [Instruction.opcode, f.toWord <<< 6, g.toWord <<< 3, h.toWord]

/-- `w` is the opcode joined with the fields `f`, `g` and `h` of comp, dest and jump: none
    leaves the word at its place, no two of the four have a bit in common, and so the word
    is also their sum. -/
structure Joins (w : Word) (f g h : BitField) : Prop where
  comp_lt : f.value <<< 6 < 1 <<< 16
  dest_lt : g.value <<< 3 < 1 <<< 16
  jump_lt : h.value < 1 <<< 16
  disjoint : (parts f g h).Pairwise fun x y => x &&& y = 0
  eq_or : w = Instruction.opcode ||| f.toWord <<< 6 ||| g.toWord <<< 3 ||| h.toWord
  eq_sum : w.toNat = 0xE000 + f.value <<< 6 + g.value <<< 3 + h.value

variable {f g h : BitField}

theorem or_and_eq_zero {x y z : Word} (hx : x &&& z = 0) (hy : y &&& z = 0) : (x ||| y) &&& z = 0 := by
  rw [BitVec.and_or_distrib_right, hx, hy]
  rfl

/-- Each part meets nothing of what was joined before it. -/
theorem Joins.and_or_eq_zero {w : Word} (hw : w.Joins f g h) :
    Instruction.opcode &&& f.toWord <<< 6 = 0 ∧
      (Instruction.opcode ||| f.toWord <<< 6) &&& g.toWord <<< 3 = 0 ∧
      (Instruction.opcode ||| f.toWord <<< 6 ||| g.toWord <<< 3) &&& h.toWord = 0 := by
  have hd := hw.disjoint
  simp only [parts, List.pairwise_cons, List.mem_cons, List.not_mem_nil, or_false, forall_eq_or_imp, forall_eq] at hd
  obtain ⟨⟨hof, hog, hoh⟩, ⟨hfg, hfh⟩, hgh, -⟩ := hd
  exact ⟨hof, or_and_eq_zero hog hfg, or_and_eq_zero (or_and_eq_zero hoh hfh) hgh⟩

theorem disjoint_parts (hf : f.value < 1 <<< 7) (hg : g.value < 1 <<< 3) (hh : h.value < 1 <<< 3) :
    (parts f g h).Pairwise fun x y => x &&& y = 0 := by
  have hcomp : (f.toWord <<< 6).toNat < 1 <<< 13 := BitField.toNat_shiftLeft_toWord_lt hf (by decide)
  have hdest : (g.toWord <<< 3).toNat < 1 <<< 6 := BitField.toNat_shiftLeft_toWord_lt hg (by decide)
  have hjump : h.toWord.toNat < 1 <<< 3 := by
    rw [BitField.toNat_toWord (Nat.lt_trans hh (by decide))]
    exact hh
  have hop : Instruction.opcode = 7#16 <<< 13 := by decide
  refine .cons ?opcode (.cons ?comp (.cons ?dest (.cons ?jump .nil)))
  case opcode =>
    intro y hy
    rw [hop]
    apply shiftLeft_and_eq_zero
    simp only [List.mem_cons, List.not_mem_nil, or_false] at hy
    rcases hy with rfl | rfl | rfl
    · exact hcomp
    · exact Nat.lt_trans hdest (by decide)
    · exact Nat.lt_trans hjump (by decide)
  case comp =>
    intro y hy
    apply shiftLeft_and_eq_zero
    simp only [List.mem_cons, List.not_mem_nil, or_false] at hy
    rcases hy with rfl | rfl
    · exact hdest
    · exact Nat.lt_trans hjump (by decide)
  case dest =>
    intro y hy
    apply shiftLeft_and_eq_zero
    rw [List.mem_singleton.mp hy]
    exact hjump
  case jump => exact fun y hy => absurd hy List.not_mem_nil

theorem joins_pack (comp : BitVec 7) (dest jump : BitVec 3) :
    Joins (pack comp dest jump) (.ofBits comp) (.ofBits dest) (.ofBits jump) := by
  have hc : comp.toNat < 1 <<< 7 := Binary.toNat_lt comp
  have hd : dest.toNat < 1 <<< 3 := Binary.toNat_lt dest
  have hj : jump.toNat < 1 <<< 3 := Binary.toNat_lt jump
  constructor
  case comp_lt => exact Nat.lt_trans (BitField.shiftLeft_value_lt hc) (by decide)
  case dest_lt => exact Nat.lt_trans (BitField.shiftLeft_value_lt hd) (by decide)
  case jump_lt => exact Nat.lt_trans hj (by decide)
  case disjoint => exact disjoint_parts hc hd hj
  case eq_or => exact (or_fields comp dest jump).symm
  case eq_sum =>
    simp only [BitField.value_ofBits, Nat.shiftLeft_eq]
    rw [toNat_pack]
    omega

end Word

/-! ## The word of an instruction -/

namespace Instruction

variable {i : Instruction}

theorem word_of_bits {bits : BitVec 7} (h : i.comp.bits? = some bits) :
    i.word = .ok (Word.pack bits i.dest.bits (Jump.code i.jump)) := by
  rw [← Word.or_fields, ← Jump.field_eq_ofBits, ← Dest.field_eq_ofBits]
  simp only [word, Comp.field_of_bits h]
  rfl

theorem word_of_no_bits (h : i.comp.bits? = none) : i.word = .error (.badComp i.comp.text) := by
  simp only [word, Comp.field_of_no_bits h]
  rfl

theorem exists_joins {f : BitField} (h : i.comp.field = .ok f) :
    ∃ w, i.word = .ok w ∧ w.Joins f i.dest.field (Jump.field i.jump) := by
  obtain ⟨bits, hb, rfl⟩ := Comp.field_eq_ok_iff.mp h
  refine ⟨_, word_of_bits hb, ?_⟩
  rw [Dest.field_eq_ofBits, Jump.field_eq_ofBits]
  exact Word.joins_pack bits i.dest.bits (Jump.code i.jump)

theorem joins_of_word {w : Word} (h : i.word = .ok w) :
    ∃ f, i.comp.field = .ok f ∧ w.Joins f i.dest.field (Jump.field i.jump) := by
  cases hf : i.comp.field with
  | ok f =>
    obtain ⟨w', hw, hj⟩ := exists_joins hf
    rw [h] at hw
    cases hw
    exact ⟨f, rfl, hj⟩
  | error e =>
    rw [word_of_no_bits (Comp.field_eq_error_iff.mp hf).1] at h
    cases h

end Instruction

end HackIsa
