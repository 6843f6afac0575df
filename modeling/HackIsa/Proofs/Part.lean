/-
  HackIsa.Proofs.Part — results and what is shown of them.

  A field is shown as digits and an error as a message that starts with a letter, so the
  two never look alike. The message of an error quotes the text as it is: the wording in
  front gives away the kind of the error, and what is left is the text, whatever
  characters are in it.

  Proved:
  - `AssemblyError.message_injective`: different errors have different messages.
  - `exists_bits_of_assemble`: the field of a part has the part's width.
  - `refuses_of_assemble`: the error of a part tells the part and holds the text.
  - `text_inj`: what is shown determines the result.
  - `same_iff_shown_alike`: results are the same exactly when they are shown alike, and
    refusals exactly when the same text was refused for the same part.
-/

import HackIsa.Proofs.Comp.Encoding
import HackIsa.Proofs.Dest
import HackIsa.Proofs.Jump

namespace HackIsa

/-! ## Messages -/

namespace AssemblyError

theorem message_badComp (s : String) : (badComp s).message = "invalid computation mnemonic '" ++ (s ++ "'") := by
  rw [← String.append_assoc]; rfl

theorem message_badJump (s : String) : (badJump s).message = "invalid jump mnemonic '" ++ (s ++ "'") := by
  rw [← String.append_assoc]; rfl

theorem message_badComp_ne_badJump (s t : String) : (badComp s).message ≠ (badJump t).message := by
  intro h
  have hc : "invalid computation mnemonic '".toList <+: (badComp s).message.toList :=
    ⟨(s ++ "'").toList, by simp only [message_badComp, String.toList_append]⟩
  have hj : "invalid jump mnemonic '".toList <+: (badComp s).message.toList :=
    ⟨(t ++ "'").toList, by simp only [h, message_badJump, String.toList_append]⟩
  rcases List.prefix_or_prefix_of_prefix hc hj with hp | hp
  · exact absurd hp (by decide)
  · exact absurd hp (by decide)

theorem message_injective : Function.Injective message := by
  intro e d h
  cases e with
  | badComp s =>
    cases d with
    | badComp t =>
      rw [message_badComp, message_badComp, String.append_right_inj, String.append_left_inj] at h
      rw [h]
    | badJump t => exact absurd h (message_badComp_ne_badJump s t)
  | badJump s =>
    cases d with
    | badComp t => exact absurd h.symm (message_badComp_ne_badJump t s)
    | badJump t =>
      rw [message_badJump, message_badJump, String.append_right_inj, String.append_left_inj] at h
      rw [h]

theorem mem_message (e : AssemblyError) : 'i' ∈ e.message.toList := by
  cases e with
  | badComp s =>
    rw [message_badComp, String.toList_append]
    exact List.mem_append_left _ (by decide)
  | badJump s =>
    rw [message_badJump, String.toList_append]
    exact List.mem_append_left _ (by decide)

end AssemblyError

/-- Digits are no message. -/
theorem BitField.text_ne_message (f : BitField) (e : AssemblyError) : f.text ≠ e.message := by
  intro h
  have hi := e.mem_message
  rw [← h] at hi
  rcases eq_of_mem_text hi with hc | hc
  · exact absurd hc (by decide)
  · exact absurd hc (by decide)

/-! ## What a part's text gives -/

namespace Part

/-- How many bits a part has in a word. -/
def width : Part → Nat
  | dest => 3
  | comp => 7
  | jump => 3

/-- The error `e` of a part for the text `s`; a dest text has none. -/
inductive Refuses (s : String) : Part → AssemblyError → Prop
  | comp : Refuses s comp (.badComp s)
  | jump : Refuses s jump (.badJump s)

variable {p q : Part} {s t : String} {e d : AssemblyError}

theorem exists_bits_of_assemble {f : BitField} (h : p.assemble s = .ok f) : ∃ bits : BitVec p.width, f = .ofBits bits := by
  cases p with
  | dest =>
    cases h
    exact ⟨(Dest.ofText s).bits, Dest.assemble_eq_ofBits s⟩
  | comp =>
    obtain ⟨c, bits, -, -, hf⟩ := Comp.assemble_eq_ok_iff.mp h
    exact ⟨bits, hf⟩
  | jump =>
    obtain ⟨j, -, rfl⟩ := Jump.assemble_eq_ok_iff.mp h
    exact ⟨Jump.code j, Jump.field_eq_ofBits j⟩

theorem fits_of_assemble {f : BitField} (h : p.assemble s = .ok f) : f.Fits := by
  obtain ⟨bits, rfl⟩ := exists_bits_of_assemble h
  exact BitField.fits_ofBits bits (by cases p <;> decide)

theorem refuses_of_assemble (h : p.assemble s = .error e) : Refuses s p e := by
  cases p with
  | dest => cases h
  | comp =>
    obtain ⟨-, rfl⟩ := Comp.assemble_eq_error_iff.mp h
    exact .comp
  | jump =>
    obtain ⟨-, rfl⟩ := Jump.assemble_eq_error_iff.mp h
    exact .jump

/-- An error tells which part it is of, and of which text. -/
theorem Refuses.eq_iff (h : Refuses s p e) (h' : Refuses t q d) : e = d ↔ p = q ∧ s = t := by
  cases h with
  | comp =>
    cases h' with
    | comp => simp
    | jump => simp
  | jump =>
    cases h' with
    | comp => simp
    | jump => simp

end Part

/-! ## Results -/

namespace Assembled

/-- What is shown of two results, whose fields fit, is equal only if the results are. -/
theorem text_inj {r r' : Except AssemblyError BitField} (h : ∀ f, r = .ok f → f.Fits)
    (h' : ∀ f, r' = .ok f → f.Fits) : text r = text r' ↔ r = r' := by
  constructor
  · intro ht
    cases r with
    | ok f =>
      cases r' with
      | ok g => rw [(BitField.text_inj (h f rfl) (h' g rfl)).mp ht]
      | error e => exact absurd ht (f.text_ne_message e)
    | error e =>
      cases r' with
      | ok g => exact absurd ht.symm (g.text_ne_message e)
      | error d => rw [AssemblyError.message_injective ht]
  · intro hr
    rw [hr]

/-- The results for two texts, each of some part of an instruction, are the same exactly when
    they are shown alike; two refusals are so for one part and one text alone. -/
theorem same_iff_shown_alike (p q : Part) (s t : String) :
    (same (p.assemble s) (q.assemble t) = true ↔ text (p.assemble s) = text (q.assemble t)) ∧
      (∀ e d, p.assemble s = .error e → q.assemble t = .error d →
        (same (p.assemble s) (q.assemble t) = true ↔ p = q ∧ s = t)) ∧
      (∀ f g, p.assemble s = .ok f → q.assemble t = .ok g →
        (same (p.assemble s) (q.assemble t) = true ↔ f.value = g.value ∧ f.width = g.width)) ∧
      ∀ f e, p.assemble s = .ok f → q.assemble t = .error e →
        same (p.assemble s) (q.assemble t) = false ∧ same (q.assemble t) (p.assemble s) = false := by
  refine ⟨?alike, ?refusals, ?fields, ?mixed⟩
  case alike =>
    rw [same_iff, text_inj (fun f hf => Part.fits_of_assemble hf) (fun f hf => Part.fits_of_assemble hf)]
  case refusals =>
    intro e d he hd
    rw [he, hd, same_iff, Except.error.injEq]
    exact (Part.refuses_of_assemble he).eq_iff (Part.refuses_of_assemble hd)
  case fields =>
    intro f g hf hg
    rw [hf, hg, same_iff, Except.ok.injEq]
    cases f
    cases g
    rw [BitField.mk.injEq]
  case mixed =>
    intro f e hf he
    rw [hf, he]
    exact ⟨rfl, rfl⟩

/-- A jump text that looks like the message about another is quoted in full. -/
example : same (Part.jump.assemble "X") (Part.jump.assemble "invalid jump mnemonic 'X'") = false := by decide

end Assembled

end HackIsa
