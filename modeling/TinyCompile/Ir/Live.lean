import TinyCompile.Ir.LastVreg
import TinyCompile.Ir.Machine

set_option autoImplicit false

/-!
# Ir: live registers

A register is live where control may reach an instruction that reads it before one that
writes it.  At the entry only parameters are live, and behind a call the last register is
live only if the call wrote it.
-/

namespace TinyCompile.Ir

open TinyCompile.Source TinyCompile.Logic

/-- The value of register `v` in front of instruction `k` may be read. -/
inductive Live (code : List IRInstruction) (v : Nat) : Nat → Prop
  | read {k : Nat} {inst : IRInstruction} (hk : code[k]? = some inst) (hv : v ∈ inst.uses) :
      Live code v k
  | pass {k j : Nat} {inst : IRInstruction} (hk : code[k]? = some inst) (hflow : Flows code k j)
      (hdef : inst.defines ≠ some v) (hlive : Live code v j) : Live code v k

section

variable {p v k : Nat} {code : List IRInstruction} {visited : List Nat}

/-- A live register is read somewhere. -/
theorem Live.used (h : Live code v k) : ∃ inst ∈ code, v ∈ inst.uses := by
  induction h with
  | read hk hv => exact ⟨_, List.mem_of_getElem? hk, hv⟩
  | pass _ _ _ _ ih => exact ih

/-- A live register that is not a parameter was written on every way. -/
theorem Live.written (hbefore : WrittenBefore p code) (hv : p < v) (h : Live code v k)
    (hpath : ControlPath code visited k) :
    ∃ j ∈ visited, ∃ d, code[j]? = some d ∧ d.defines = some v := by
  induction h generalizing visited with
  | read hk huse => exact hbefore.onPath hpath hk huse hv
  | pass hk hflow hdef _ ih =>
    obtain ⟨j, hj, d, hd, hdefines⟩ := ih (hpath.step hflow)
    rcases List.mem_append.mp hj with hj | hj
    · exact ⟨j, hj, d, hd, hdefines⟩
    · rw [List.mem_singleton.mp hj] at hd
      obtain rfl := Option.some.inj (hk.symm.trans hd)
      exact absurd hdefines hdef

/-- At the entry only parameters are live. -/
theorem Live.entry (hbefore : WrittenBefore p code) (h : Live code v 0) : v ≤ p := by
  by_contra hv
  obtain ⟨j, hj, -⟩ := h.written hbefore (by omega) .entry
  cases hj

/-- A register that is read at once is live only right behind its writer. -/
theorem Live.readAtOnce {c : Nat} (hlast : ReadAtOnce v code) (h : Live code v k)
    (hpath : ControlPath code (visited ++ [c]) k) :
    ∃ d, code[c]? = some d ∧ d.defines = some v := by
  induction h generalizing visited c with
  | read hk huse =>
    obtain ⟨init, i, d, heq, hi, hd⟩ := hlast.onPath hpath hk huse
    obtain ⟨-, rfl⟩ := List.append_singleton_inj.mp heq
    exact ⟨d, hi, hd⟩
  | pass hk hflow hdef _ ih =>
    obtain ⟨d, hd, hdefines⟩ := ih (hpath.step hflow)
    obtain rfl := Option.some.inj (hk.symm.trans hd)
    exact absurd hdefines hdef

end

section

variable {p v k : Nat} {f : IRFunction}

theorem IRFunction.WellFormed.live_range (h : f.WellFormed p) (hlive : Live f.instructions v k) :
    1 ≤ v ∧ v < f.vregCount := by
  obtain ⟨inst, hi, hv⟩ := hlive.used
  have hrange := h.piece.uses inst hi v hv
  have hle := h.piece.le
  omega

/-- Behind a call the last register is live only if it holds the result. -/
theorem IRFunction.WellFormed.last_behind_call (h : f.WellFormed p) {visited : List Nat} {c : Nat}
    {inst : IRInstruction} (hpath : ControlPath f.instructions (visited ++ [c]) k)
    (hc : f.instructions[c]? = some inst) (hop : inst.opcode = .call)
    (hlive : Live f.instructions f.lastVreg k) : inst.dest = f.lastVreg := by
  have hlast := h.lastVreg_own (List.mem_of_getElem? hc) hop
  obtain ⟨d, hd, hdefines⟩ := hlive.readAtOnce (h.lastVreg_readAtOnce hlast) hpath
  obtain rfl := Option.some.inj (hc.symm.trans hd)
  simpa [IRInstruction.defines, hop] using hdefines

end

/-! ## Turns of the interpreter follow control -/

section

variable {oracle : Oracle} {code : List IRInstruction} {pc pc' : Nat} {s s' : RunState}

/-- Where an instruction that falls through leads. -/
theorem flows_next {inst : IRInstruction} (hget : code[pc]? = some inst)
    (htarget : inst.target = none) (hret : inst.opcode ≠ .ret) : Flows code pc (pc + 1) := by
  refine .next hget (fun hop => ?_) hret
  simp [IRInstruction.target, hop] at htarget

/-- A jump of the interpreter goes to the first instruction that is the label. -/
theorem jumpTo_inv {label : Nat} (h : jumpTo code label s = some (.again (pc', s'))) :
    s' = s ∧ ∃ inst, code[pc']? = some inst ∧ inst.labelDef = some label := by
  obtain ⟨i, hi, heq⟩ := Option.map_eq_some_iff.mp h
  cases heq
  obtain ⟨hlt, hlabel, -⟩ := List.findIdx?_eq_some_iff_getElem.mp hi
  exact ⟨rfl, _, List.getElem?_eq_getElem hlt, by simpa using hlabel⟩

end

end TinyCompile.Ir
