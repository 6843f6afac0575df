/-
  HackIsa.Proofs.Checked — the assembler with every precondition tested.

  A field is made from a word in which a mask or a code stands for each thing that is set,
  and the word must have no bit outside the width. A field is moved up and joined to the
  word of an instruction, and must leave no bit outside the word and cover none that is
  set. The first argument of a command line is looked up by its place. Here each of these
  is a test that stops the assembler when it fails, and no text, no value and no list of
  arguments makes one fail: the tested assembler gives what the plain one gives.

  Proved:
  - `run_bind`: steps that pass their tests pass them one after the other.
  - `BitField.run_checked`: a word whose bits fit is made a field.
  - `Dest.fits_fieldWord` and its siblings: the masks and codes of every value fit.
  - `Instruction.run_checkedWord`: every shift and every join passes.
  - `CommandLine.run?_eq`: the first argument is there whenever it is looked up.
  - `no_test_fails`: all of it, with the bounds that hold of fields and words.
-/

import HackIsa.Proofs.CommandLine
import HackIsa.Proofs.Part

namespace HackIsa

/-- A step that may refuse its input, and that stops without any result when a test fails. -/
abbrev Checked := ExceptT AssemblyError Option

/-! ## Steps -/

namespace Checked

def test (p : Prop) [Decidable p] : Checked Unit := if p then pure () else ExceptT.lift none

variable {α β : Type}

theorem run_test {p : Prop} [Decidable p] (h : p) : (test p).run = some (.ok ()) := by
  rw [test, if_pos h]
  rfl

/-- Steps that test nothing. -/
theorem run_liftM (r : Except AssemblyError α) : (liftM r : Checked α).run = some r := rfl

theorem run_bind {x : Checked α} {r : Except AssemblyError α} {f : α → Checked β} {g : α → Except AssemblyError β}
    (hx : x.run = some r) (hf : ∀ a, r = .ok a → (f a).run = some (g a)) : (x >>= f).run = some (r >>= g) := by
  rw [ExceptT.run_bind, hx]
  cases r with
  | ok a => exact hf a rfl
  | error e => rfl

theorem run_bind_ok {x : Checked α} {a : α} (hx : x.run = some (.ok a)) (f : α → Checked β) :
    (x >>= f).run = (f a).run := by
  rw [ExceptT.run_bind, hx]
  rfl

end Checked

open Checked (test run_test run_liftM run_bind run_bind_ok)

/-! ## Fields -/

/-- The field of the bits that are set in a word, none of which may lie outside the width. -/
def BitField.checked (bits : Word) (width : Nat) : Checked BitField := do
  test (Fits (.ofWord bits width))
  return .ofWord bits width

def Dest.checkedField (d : Dest) : Checked BitField := BitField.checked d.fieldWord 3

def Comp.checkedField (c : Comp) : Checked BitField :=
  match c.fieldWord? with
  | some bits => BitField.checked bits 7
  | none => throw (.badComp c.text)

def Jump.checkedField (j : Option Jump) : Checked BitField := BitField.checked (fieldWord j) 3

theorem BitField.run_checked {bits : Word} {width : Nat} (h : Fits (.ofWord bits width)) :
    (checked bits width).run = some (.ok (.ofWord bits width)) := by
  rw [checked, run_bind_ok (run_test h)]
  rfl

example : (BitField.checked 0b1000 3).run = none := by decide

theorem Dest.fits_fieldWord (d : Dest) : BitField.Fits (.ofWord d.fieldWord 3) := by
  rw [BitField.ofWord_eq_ofBits d.toNat_fieldWord]
  exact BitField.fits_ofBits d.bits (by decide)

theorem Comp.fits_fieldWord {c : Comp} {bits : Word} (h : c.fieldWord? = some bits) :
    BitField.Fits (.ofWord bits 7) := by
  obtain ⟨b, -, hb⟩ := toNat_fieldWord h
  rw [BitField.ofWord_eq_ofBits hb]
  exact BitField.fits_ofBits b (by decide)

theorem Jump.fits_fieldWord (j : Option Jump) : BitField.Fits (.ofWord (fieldWord j) 3) := by
  rw [BitField.ofWord_eq_ofBits (toNat_fieldWord j)]
  exact BitField.fits_ofBits (code j) (by decide)

theorem Dest.run_checkedField (d : Dest) : d.checkedField.run = some (.ok d.field) :=
  BitField.run_checked d.fits_fieldWord

theorem Comp.run_checkedField (c : Comp) : c.checkedField.run = some c.field := by
  unfold checkedField field
  cases h : c.fieldWord? with
  | some bits => exact BitField.run_checked (fits_fieldWord h)
  | none => rfl

theorem Jump.run_checkedField (j : Option Jump) : (checkedField j).run = some (.ok (field j)) :=
  BitField.run_checked (fits_fieldWord j)

theorem Comp.fits_of_field {c : Comp} {f : BitField} (h : c.field = .ok f) : f.Fits := by
  unfold field at h
  split at h
  · rename_i bits hw
    cases h
    exact fits_fieldWord hw
  · cases h

/-! ## Words -/

/-- `f` moved up by `n` bits and joined to `w`; none of its bits may leave the word or meet a
    bit that is set. -/
def Word.join (w : Word) (f : BitField) (n : Nat) : Checked Word := do
  test (f.value <<< n < 1 <<< 16)
  test (w &&& f.toWord <<< n = 0)
  return w ||| f.toWord <<< n

def Instruction.checkedWord (i : Instruction) : Checked Word := do
  let w ← Word.join opcode (← i.comp.checkedField) 6
  let w ← Word.join w (← i.dest.checkedField) 3
  Word.join w (← Jump.checkedField i.jump) 0

theorem Word.run_join {w : Word} {f : BitField} {n : Nat} (h : f.value <<< n < 1 <<< 16) (hw : w &&& f.toWord <<< n = 0) :
    (join w f n).run = some (.ok (w ||| f.toWord <<< n)) := by
  rw [join, run_bind_ok (run_test h), run_bind_ok (run_test hw)]
  rfl

example : (Word.join 0b1000 ⟨1, 1⟩ 3).run = none := by decide

theorem Instruction.run_checkedWord (i : Instruction) : i.checkedWord.run = some i.word := by
  unfold checkedWord word
  refine run_bind (Comp.run_checkedField i.comp) fun f hf => ?_
  obtain ⟨w, -, hw⟩ := exists_joins hf
  obtain ⟨hcomp, hdest, hjump⟩ := hw.and_or_eq_zero
  rw [← BitVec.shiftLeft_zero (Jump.field i.jump).toWord] at hjump
  rw [run_bind_ok (Word.run_join hw.comp_lt hcomp), run_bind_ok (Dest.run_checkedField i.dest),
    run_bind_ok (Word.run_join hw.dest_lt hdest), run_bind_ok (Jump.run_checkedField i.jump),
    Word.run_join hw.jump_lt hjump, BitVec.shiftLeft_zero]
  rfl

/-! ## Texts -/

def Part.checkedAssemble : Part → String → Checked BitField
  | .dest, s => (Dest.ofText s).checkedField
  | .comp, s => do (← Comp.ofText s).checkedField
  | .jump, s => do Jump.checkedField (← Jump.ofText s)

def Comp.checkedOfComputable (s : String) : Checked Comp := do
  let c ← ofText s
  let _ ← c.checkedField
  return c

def Instruction.checkedAssemble (dest comp jump : String) : Checked Word := do
  let i ← ofText dest comp jump
  i.checkedWord

theorem Part.run_checkedAssemble (p : Part) (s : String) : (p.checkedAssemble s).run = some (p.assemble s) := by
  cases p with
  | dest => exact Dest.run_checkedField (Dest.ofText s)
  | comp => exact run_bind (run_liftM (Comp.ofText s)) fun c _ => c.run_checkedField
  | jump => exact run_bind (run_liftM (Jump.ofText s)) fun j _ => Jump.run_checkedField j

theorem Comp.run_checkedOfComputable (s : String) : (checkedOfComputable s).run = some (ofComputable s) :=
  run_bind (run_liftM (ofText s)) fun c _ => run_bind c.run_checkedField fun _ _ => rfl

theorem Instruction.run_checkedAssemble (dest comp jump : String) :
    (checkedAssemble dest comp jump).run = some (assemble dest comp jump) :=
  run_bind (run_liftM (ofText dest comp jump)) fun i _ => i.run_checkedWord

/-! ## Command lines -/

namespace CommandLine

/-- The run on a whole list of arguments, the program's name in front, in which an argument
    is looked up without knowing that it is there. -/
def run? (argv : List String) : Option Outcome :=
  if argv.length < 2 ∨ 4 < argv.length then
    some { status := 2, stdout := "", stderr := usage (argv[0]?.getD defaultProgram) }
  else do
    let comp ← argv[1]?
    match (report (argv[2]?.getD "") comp (argv[3]?.getD "")).run.run "" with
    | (.ok (), written) => some { status := 0, stdout := written, stderr := "" }
    | (.error e, written) => some { status := 1, stdout := written, stderr := e.message ++ "\n" }

theorem run?_eq (argv : List String) : run? argv = some (runAll argv) := by
  unfold runAll
  cases argv with
  | nil => rfl
  | cons program args =>
    have hl : (program :: args).length = args.length + 1 := List.length_cons ..
    by_cases h : args.length < 1 ∨ 3 < args.length
    · rw [run?, if_pos (by omega), List.tail_cons, run_of_bad_count h, List.getElem?_cons_zero,
        Option.getD_some]
    · have h₀ : 0 < args.length := by omega
      have hc : args[0]? = some args[0] := List.getElem?_eq_getElem h₀
      cases hr : (report (args[1]?.getD "") args[0] (args[2]?.getD "")).run.run "" with
      | mk r written =>
        rw [run?, if_neg (by omega), List.tail_cons, run_of_report hc (by omega) hr]
        simp only [List.getElem?_cons_succ, hc, Option.bind_eq_bind, Option.bind_some, hr]
        cases r <;> rfl

end CommandLine

/-- Whatever values, texts and arguments it is given, the assembler with its tests stops nowhere
    and gives what it gives without them: every field fits its width, and the parts of a word
    fit it, have no bit in common and are summed. -/
theorem no_test_fails :
    ((∀ d : Dest, d.checkedField.run = some (.ok d.field) ∧ d.field.Fits) ∧
        (∀ c : Comp, c.checkedField.run = some c.field ∧ ∀ f, c.field = .ok f → f.Fits) ∧
        (∀ j, (Jump.checkedField j).run = some (.ok (Jump.field j)) ∧ (Jump.field j).Fits) ∧
        ∀ f : BitField, f.Fits → f.value < 1 <<< f.width) ∧
      (∀ i : Instruction, i.checkedWord.run = some i.word ∧
        ∀ w, i.word = .ok w → ∃ f, i.comp.field = .ok f ∧ w.Joins f i.dest.field (Jump.field i.jump)) ∧
      ((∀ p s, (Part.checkedAssemble p s).run = some (p.assemble s) ∧ ∀ f, p.assemble s = .ok f → f.Fits) ∧
        (∀ s, (Comp.checkedOfComputable s).run = some (Comp.ofComputable s)) ∧
        ∀ dest comp jump,
          (Instruction.checkedAssemble dest comp jump).run = some (Instruction.assemble dest comp jump)) ∧
      ∀ argv, CommandLine.run? argv = some (CommandLine.runAll argv) := by
  refine ⟨⟨?dest, ?comp, ?jump, fun f hf => (BitField.fits_iff.mp hf).2⟩, ?words,
    ⟨?texts, Comp.run_checkedOfComputable, Instruction.run_checkedAssemble⟩, CommandLine.run?_eq⟩
  case dest => exact fun d => ⟨d.run_checkedField, d.fits_fieldWord⟩
  case comp => exact fun c => ⟨c.run_checkedField, fun f hf => Comp.fits_of_field hf⟩
  case jump => exact fun j => ⟨Jump.run_checkedField j, Jump.fits_fieldWord j⟩
  case words => exact fun i => ⟨i.run_checkedWord, fun w hw => Instruction.joins_of_word hw⟩
  case texts => exact fun p s => ⟨p.run_checkedAssemble s, fun f hf => Part.fits_of_assemble hf⟩

end HackIsa
