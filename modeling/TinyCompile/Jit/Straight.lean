import TinyCompile.Jit.Frame

set_option autoImplicit false

/-!
# Jit: what the code of an operation computes

Symbolic execution of the code of the opcodes that fall through.  Each leaves the value of
the operation in the location of the destination, whatever the locations are, and nothing
else but scratch registers and flags changes.
-/

namespace TinyCompile.Jit

open TinyCompile.Machine TinyCompile.X86 TinyCompile.Source TinyCompile.Ir

/-! ## Executing encoded instructions -/

/-- Execute encoded instructions one after the other. -/
def execCode (es : List Encoded) (s : State) : Option State := execList (es.map (·.instr)) s

@[simp] theorem execCode_nil (s : State) : execCode [] s = some s := rfl

theorem execCode_cons (e : Encoded) (es : List Encoded) (s : State) :
    execCode (e :: es) s = (exec e.instr s).bind (execCode es) := rfl

theorem execCode_one (e : Encoded) (s : State) : execCode [e] s = exec e.instr s :=
  Option.bind_fun_some _

theorem execCode_append (es es' : List Encoded) (s : State) :
    execCode (es ++ es') s = (execCode es s).bind (execCode es') := by
  unfold execCode
  rw [List.map_append, execList_append]

theorem execCode_seq {es es' : List Encoded} {s s₁ s₂ : State} (h : execCode es s = some s₁)
    (h' : execCode es' s₁ = some s₂) : execCode (es ++ es') s = some s₂ := by
  rw [execCode_append, h]
  exact h'

theorem setReg_self (s : State) (r : Reg) : s.setReg r (s.regs r) = s := by
  unfold State.setReg
  rw [Function.update_eq_self]

/-! ## Loads and stores -/

section

variable {s : State} {l dest left right : Location} {v : Word}

/-- `load_location_to_reg`. -/
theorem exec_loadCode (dst : Reg) (h : l.Usable) :
    execCode (loadCode dst l) s = some (s.setReg dst (contents s l)) := by
  cases l with
  | reg r =>
    show execCode (if r ≠ dst then [movRegReg dst r] else []) s = _
    by_cases heq : r = dst
    · subst heq
      rw [if_neg (by simp), contents_reg, setReg_self]
      rfl
    · rw [if_pos heq]
      rfl
  | stack offset => rfl
  | const imm => exact h.elim
  | none => exact h.elim

/-- `store_reg_to_location`. -/
theorem exec_storeCode {src : Reg} (hsrc : IsScratch src) (h : l.Usable) :
    execCode (storeCode src l) s = some (put s l (s.regs src)) := by
  cases l with
  | reg r =>
    obtain ⟨hax, hcx, hdx, -, -⟩ := allocatable_ne h
    have hne : r ≠ src := by
      rcases hsrc with rfl | rfl | rfl <;> assumption
    show execCode (if r ≠ src then [movRegReg r src] else []) s = _
    rw [if_pos hne]
    rfl
  | stack offset => rfl
  | const imm => exact h.elim
  | none => exact h.elim

/-- The right operand of `load_binary_operands`. -/
theorem exec_rightCode {tmp : Reg} (htmp : IsScratch tmp) (h : l.Usable) :
    ∃ s₁, execCode (rightCode tmp l).1 s = some s₁ ∧ Scratched s s₁ ∧
      (∀ r, r ≠ tmp → s₁.regs r = s.regs r) ∧ s₁.regs (rightCode tmp l).2 = contents s l := by
  cases l with
  | reg r => exact ⟨s, rfl, .refl s, fun _ _ => rfl, rfl⟩
  | stack offset =>
    refine ⟨_, exec_loadCode tmp h, (Scratched.refl s).setReg htmp _, fun r hr => ?_, ?_⟩
    · exact s.setReg_of_ne _ hr
    · exact s.setReg_same tmp _
  | const imm => exact h.elim
  | none => exact h.elim

/-! ## Values in `rax` -/

/-- The code leaves a value in `rax`. -/
def OnRax (es : List Encoded) (s : State) (v : Word) : Prop :=
  ∃ s₁, execCode es s = some s₁ ∧ Scratched s s₁ ∧ s₁.regs .rax = v

/-- The code leaves a value in a location. -/
def Computes (es : List Encoded) (s : State) (l : Location) (v : Word) : Prop :=
  ∃ s₁, execCode es s = some (put s₁ l v) ∧ Scratched s s₁

theorem OnRax.load (h : l.Usable) : OnRax (loadCode .rax l) s (contents s l) :=
  ⟨_, exec_loadCode .rax h, (Scratched.refl s).setReg (.inl rfl) _, s.setReg_same _ _⟩

/-- Go on where a value is in `rax`. -/
theorem OnRax.seq {es es' : List Encoded} {w : Word} (h : OnRax es s v)
    (h' : ∀ s₁, Scratched s s₁ → s₁.regs .rax = v → OnRax es' s₁ w) :
    OnRax (es ++ es') s w := by
  obtain ⟨s₁, hexec, hs, hv⟩ := h
  obtain ⟨s₂, hexec', hs', hw⟩ := h' s₁ hs hv
  exact ⟨s₂, execCode_seq hexec hexec', hs.trans hs', hw⟩

theorem OnRax.store {es : List Encoded} (h : OnRax es s v) (hl : l.Usable) :
    Computes (es ++ storeCode .rax l) s l v := by
  obtain ⟨s₁, hexec, hs, rfl⟩ := h
  exact ⟨s₁, execCode_seq hexec (exec_storeCode (.inl rfl) hl), hs⟩

/-! ## The shapes of code -/

/-- `op` computes `v` from `rax` and another register. -/
def OpComputes (op : Reg → List Encoded) (a b v : Word) : Prop :=
  ∀ s r, s.regs .rax = a → s.regs r = b → OnRax (op r) s v

theorem binaryCode_computes {tmp : Reg} {op : Reg → List Encoded} (htmp : IsScratch tmp)
    (hne : tmp ≠ .rax) (hdest : dest.Usable) (hleft : left.Usable) (hright : right.Usable)
    (hop : OpComputes op (contents s left) (contents s right) v) :
    Computes (binaryCode tmp op dest left right) s dest v := by
  apply OnRax.store _ hdest
  rw [List.append_assoc]
  refine (OnRax.load hleft).seq fun s₁ hs₁ hrax => ?_
  obtain ⟨s₂, hexec, hs₂, hkeep, hval⟩ := exec_rightCode (s := s₁) htmp hright
  rw [hs₁.contents hright] at hval
  have hrax₂ : s₂.regs .rax = contents s left := (hkeep .rax hne.symm).trans hrax
  obtain ⟨s₃, hexec', hs₃, hv⟩ := hop s₂ _ hrax₂ hval
  exact ⟨s₃, execCode_seq hexec hexec', hs₂.trans hs₃, hv⟩

theorem unaryCode_computes {op : List Encoded} (hdest : dest.Usable) (hsrc : left.Usable)
    (hop : ∀ s₁, s₁.regs .rax = contents s left → OnRax op s₁ v) :
    Computes (unaryCode op dest left) s dest v :=
  ((OnRax.load hsrc).seq fun s₁ _ hrax => hop s₁ hrax).store hdest

theorem shiftCode_computes (op : ShiftOp) (hdest : dest.Usable) (hleft : left.Usable)
    (hright : right.Usable) :
    Computes (shiftCode op dest left right) s dest
      (op.eval (contents s left) (contents s right)) := by
  apply OnRax.store _ hdest
  rw [List.append_assoc]
  refine (OnRax.load hleft).seq fun s₁ hs₁ hrax => ?_
  have hload := exec_loadCode (s := s₁) .rcx hright
  rw [hs₁.contents hright] at hload
  have hs₂ := (Scratched.refl s₁).setReg (.inr (.inl rfl)) (contents s right)
  have hrax₂ : (s₁.setReg .rcx (contents s right)).regs .rax = contents s left :=
    (s₁.setReg_of_ne _ (by decide)).trans hrax
  refine ⟨_, execCode_seq hload rfl, (hs₂.setReg (.inl rfl) _).withFlags none, ?_⟩
  show op.eval ((s₁.setReg .rcx (contents s right)).regs .rax)
    ((s₁.setReg .rcx (contents s right)).regs .rcx) = _
  rw [hrax₂, State.setReg_same]

theorem divCode_computes (hdest : dest.Usable) (hleft : left.Usable) (hright : right.Usable)
    (hq : quotient (contents s left) (contents s right) = some v) :
    Computes (divCode dest left right) s dest v := by
  apply OnRax.store _ hdest
  rw [List.append_assoc, List.append_assoc]
  refine (OnRax.load hleft).seq fun s₁ hs₁ hrax => ?_
  -- `cqo` first, so the divisor must not be loaded into `rdx`
  have hcqo : execCode [cqo] s₁ =
      some (s₁.setReg .rdx (if (s₁.regs .rax).msb then BitVec.allOnes 64 else 0)) := rfl
  generalize hs₂ : s₁.setReg .rdx (if (s₁.regs .rax).msb then BitVec.allOnes 64 else 0) = s₂
    at hcqo
  have hscratch : Scratched s₁ s₂ := by
    rw [← hs₂]
    exact (Scratched.refl s₁).setReg (.inr (.inr rfl)) _
  have hrdx : s₂.regs .rdx = if (contents s left).msb then BitVec.allOnes 64 else 0 := by
    rw [← hs₂, State.setReg_same, hrax]
  have hrax₂ : s₂.regs .rax = contents s left := by
    rw [← hs₂, State.setReg_of_ne _ _ (by decide), hrax]
  obtain ⟨s₃, hexec, hs₃, hkeep, hval⟩ :=
    exec_rightCode (s := s₂) (show IsScratch .rcx from .inr (.inl rfl)) hright
  rw [(hs₁.trans hscratch).contents hright] at hval
  have hidiv : execCode [idiv (rightCode .rcx right).2] s₃ = execIdiv s₃ (contents s right) := by
    rw [← hval]
    exact execCode_one _ s₃
  obtain ⟨s₄, hdiv, hv, hmem, hregs⟩ := execIdiv_eq ((hkeep .rax (by decide)).trans hrax₂)
    ((hkeep .rdx (by decide)).trans hrdx) hq
  have hs₄ : Scratched s₃ s₄ := ⟨fun r hax _ hdx => hregs r hax hdx, hmem⟩
  exact ⟨s₄, execCode_seq hcqo (execCode_seq hexec (hidiv.trans hdiv)),
    hscratch.trans (hs₃.trans hs₄), hv⟩

end

end TinyCompile.Jit
