/-
  HackIsa.Proofs.CommandLine — a run prints a whole report or none of it.

  The report is written line by line between steps that may fail, and what is written
  before a failure stays written. But once there is a word, the comp and the jump text have
  fields too, so the first step is the only one that can fail and nothing is written
  before it.

  Proved:
  - `run_report_of_error` / `run_report_of_ok`: a report without a word writes nothing, a
    report with one writes all its lines.
  - `run_all_or_nothing`: status and both outputs for every list of arguments.
-/

import HackIsa.CommandLine
import HackIsa.Proofs.Instruction.Assembly

namespace HackIsa.CommandLine

/-! ## Steps of a report -/

theorem run_bind {α β : Type} (x : Writing α) (f : α → Writing β) (written : String) :
    (x >>= f).run.run written = match x.run.run written with
      | (.ok a, written) => (f a).run.run written
      | (.error e, written) => (.error e, written) := by
  rw [ExceptT.run_bind, StateT.run_bind]
  rcases x.run.run written with ⟨r, written⟩
  cases r with
  | ok a => rfl
  | error e => rfl

/-- Assembling writes nothing, whether it succeeds or fails. -/
@[simp] theorem run_liftM {α : Type} (r : Except AssemblyError α) (written : String) :
    (liftM r : Writing α).run.run written = (r, written) := rfl

@[simp] theorem run_writeLine (line written : String) :
    (writeLine line).run.run written = (.ok (), written ++ line ++ "\n") := rfl

theorem run_report_of_error {dest comp jump : String} {e : AssemblyError}
    (h : Instruction.assemble dest comp jump = .error e) (written : String) :
    (report dest comp jump).run.run written = (.error e, written) := by
  rw [report, run_bind, h, run_liftM]

theorem run_report_of_ok {dest comp jump : String} {w : Word} {f g : BitField}
    (hw : Instruction.assemble dest comp jump = .ok w) (hf : Comp.assemble comp = .ok f)
    (hg : Jump.assemble jump = .ok g) :
    (report dest comp jump).run.run "" =
      (.ok (), "dest " ++ (Dest.assemble dest).text ++ "\n" ++ "comp " ++ f.text ++ "\n" ++ "jump " ++ g.text ++ "\n" ++
        w.text ++ "\n") := by
  simp only [report, run_bind, hw, hf, hg, run_liftM, run_writeLine, String.append_assoc, String.empty_append]

/-! ## Runs -/

variable {program comp : String} {args : List String}

theorem run_of_bad_count (h : args.length < 1 ∨ 3 < args.length) :
    run program args = { status := 2, stdout := "", stderr := usage program } := by
  unfold run
  rw [dif_pos h]

theorem run_of_report (hc : args[0]? = some comp) (hn : args.length ≤ 3) {r : Except AssemblyError Unit} {written : String}
    (h : (report (args[1]?.getD "") comp (args[2]?.getD "")).run.run "" = (r, written)) :
    run program args = match r with
      | .ok () => { status := 0, stdout := written, stderr := "" }
      | .error e => { status := 1, stdout := written, stderr := e.message ++ "\n" } := by
  obtain ⟨h₀, rfl⟩ := List.getElem?_eq_some_iff.mp hc
  unfold run
  rw [dif_neg (by omega)]
  simp only [h]
  cases r <;> rfl

/-- A run prints the usage line, or the message of the one error, or the three fields and the
    word made of their digits, and nothing besides. -/
theorem run_all_or_nothing (program : String) (args : List String) :
    (args.length < 1 ∨ 3 < args.length →
        run program args = { status := 2, stdout := "", stderr := "Usage: " ++ program ++ " <comp> [dest] [jump]\n" }) ∧
      ∀ comp, args[0]? = some comp → args.length ≤ 3 →
        (∀ e, Instruction.assemble (args[1]?.getD "") comp (args[2]?.getD "") = .error e →
          run program args = { status := 1, stdout := "", stderr := e.message ++ "\n" }) ∧
        ∀ w, Instruction.assemble (args[1]?.getD "") comp (args[2]?.getD "") = .ok w →
          ∃ f g x y z v, Comp.assemble comp = .ok f ∧ Jump.assemble (args[2]?.getD "") = .ok g ∧
            Binary.Numeral 3 (Dest.assemble (args[1]?.getD "")).value x ∧ Binary.Numeral 7 f.value y ∧
            Binary.Numeral 3 g.value z ∧ Binary.Numeral 16 w.toNat v ∧ v = "111" ++ y ++ x ++ z ∧
            run program args =
              { status := 0,
                stdout := "dest " ++ x ++ "\n" ++ "comp " ++ y ++ "\n" ++ "jump " ++ z ++ "\n" ++ v ++ "\n",
                stderr := "" } := by
  refine ⟨run_of_bad_count, fun comp hc hn => ⟨fun e he => ?_, fun w hw => ?_⟩⟩
  · exact run_of_report hc hn (run_report_of_error he "")
  · obtain ⟨bits, j, hf, hg, rfl⟩ := Instruction.fields_of_assemble hw
    refine ⟨_, _, _, _, _, _, hf, hg, ?dest, ?comp, ?jump, ?word, ?order,
      run_of_report hc hn (run_report_of_ok hw hf hg)⟩
    case dest =>
      rw [Dest.assemble_eq_ofBits]
      exact Binary.numeral_toNat (Dest.ofText (args[1]?.getD "")).bits
    case comp => exact Binary.numeral_toNat bits
    case jump => exact Binary.numeral_toNat (Jump.code j)
    case word => exact Binary.numeral_toNat _
    case order =>
      rw [Dest.assemble_eq_ofBits]
      exact Word.text_pack bits _ _

example : run "hack-code" ["A+M", "D", "JUMP"] =
    { status := 1, stdout := "", stderr := "invalid jump mnemonic 'JUMP'\n" } := by decide

end HackIsa.CommandLine
