/-
  HackIsa.Vocabulary — closed sets of spelled tokens, and the texts outside them.

  A vocabulary lists its members and spells each of them, no two alike. Every token of
  the instruction set (operands, operators, jump conditions) belongs to one, so looking
  a text up is defined once.

  A comp text may be no computation, or one that the ALU cannot perform; a jump text may
  name no condition. The error carries the offending text as it was given.

  Stated here: a text names a member exactly when it is that member's spelling
  (`ofText?_eq_some_iff`), and is not found exactly when it is nobody's
  (`lookup_eq_error_iff`).
-/

namespace HackIsa

class Vocabulary (α : Type) where
  all : List α
  spelling : α → List Char
  mem_all : ∀ a, a ∈ all
  spelling_injective : ∀ a b, spelling a = spelling b → a = b

/-- Why a lookup fails. -/
inductive LookupError where
  | notFound
  deriving DecidableEq, Repr

namespace Vocabulary

variable {α : Type} [Vocabulary α]

def text (a : α) : String := String.ofList (spelling a)

variable (α) in
/-- The member that `s` spells, character for character. -/
def ofText? (s : String) : Option α := (all : List α).find? fun a => text a == s

variable (α) in
def lookup (s : String) : Except LookupError α :=
  match ofText? α s with
  | some a => .ok a
  | none => .error .notFound

theorem text_inj {a b : α} : text a = text b ↔ a = b :=
  ⟨fun h => spelling_injective a b (by simpa [text] using congrArg String.toList h), congrArg text⟩

@[simp] theorem ofText?_eq_some_iff {s : String} {a : α} : ofText? α s = some a ↔ text a = s := by
  constructor
  · intro h
    simpa using List.find?_some h
  · rintro rfl
    cases h : ofText? α (text a) with
    | none => simpa using List.find?_eq_none.mp h a (mem_all a)
    | some b =>
      have hb : text b = text a := by simpa using List.find?_some h
      rw [text_inj.mp hb]

theorem lookup_eq_ok_iff {s : String} {a : α} : lookup α s = .ok a ↔ text a = s := by
  rw [← ofText?_eq_some_iff]
  unfold lookup
  split <;> rename_i h <;> simp [h]

theorem lookup_eq_error_iff {s : String} {e : LookupError} :
    lookup α s = .error e ↔ (∀ a : α, text a ≠ s) ∧ e = .notFound := by
  cases h : lookup α s with
  | ok a =>
    refine ⟨nofun, fun hn => ?_⟩
    exact absurd (lookup_eq_ok_iff.mp h) (hn.1 a)
  | error d =>
    have hd : d = .notFound := by cases d; rfl
    refine ⟨fun he => ⟨fun a ha => ?_, ?_⟩, fun hn => ?_⟩
    · rw [lookup_eq_ok_iff.mpr ha] at h
      cases h
    · rw [← Except.error.inj he, hd]
    · rw [hd, hn.2]

end Vocabulary

inductive AssemblyError where
  | badComp (text : String)
  | badJump (text : String)
  deriving DecidableEq, Repr

def AssemblyError.message : AssemblyError → String
  | .badComp text => "invalid computation mnemonic '" ++ text ++ "'"
  | .badJump text => "invalid jump mnemonic '" ++ text ++ "'"

end HackIsa
