import TinyCompile.Ir.Eval
import TinyCompile.Jit.Decoded
import TinyCompile.X86.Arith

set_option autoImplicit false

/-!
# Jit: locations in a machine state

The word in a location, and what code leaves alone: everything but the scratch registers
`rax`, `rcx`, `rdx`, the flags and the location it writes.
-/

namespace TinyCompile.Jit

open TinyCompile.Machine TinyCompile.X86 TinyCompile.Source TinyCompile.Ir

/-! ## Locations -/

/-- The locations the allocator hands out. -/
def Location.Usable : Location → Prop
  | .reg r => isAllocatableRegister r = true
  | .stack offset => offset.toNat % 8 = 0
  | _ => False

/-- The word in a location. -/
def contents (s : State) : Location → Word
  | .reg r => s.regs r
  | .stack offset => s.read (frameOperand offset)
  | .const imm => imm
  | .none => 0

/-- The state with a word in a location. -/
def put (s : State) (l : Location) (v : Word) : State :=
  match l with
  | .reg r => s.setReg r v
  | .stack offset => s.write (frameOperand offset) v
  | _ => s

/-- The address of a slot. -/
def slotAddress (s : State) (offset : BitVec 32) : Word := s.regs .rbp + offset.signExtend 64

@[simp] theorem contents_reg (s : State) (r : Reg) : contents s (.reg r) = s.regs r := rfl

theorem contents_stack (s : State) (offset : BitVec 32) :
    contents s (.stack offset) = read64 s.mem (slotAddress s offset) := rfl

theorem put_stack (s : State) (offset : BitVec 32) (v : Word) :
    put s (.stack offset) v = { s with mem := writeLow s.mem (slotAddress s offset) 8 v } := rfl

theorem allocatable_ne {r : Reg} (h : isAllocatableRegister r = true) :
    r ≠ .rax ∧ r ≠ .rcx ∧ r ≠ .rdx ∧ r ≠ .rsp ∧ r ≠ .rbp := by
  cases r <;> simp_all [isAllocatableRegister, Reg.code]

/-- Slots at different multiples of eight do not overlap. -/
theorem slots_apart (p : Word) {off off' : BitVec 32} (h : off.toNat % 8 = 0)
    (h' : off'.toNat % 8 = 0) (hne : off ≠ off') :
    Apart (p + off.signExtend 64) 8 (p + off'.signExtend 64) 8 := by
  have hsext : ∀ o : BitVec 32, o.signExtend 64 = BitVec.ofInt 64 o.toInt := fun _ => rfl
  have hint : off.toInt ≠ off'.toInt := fun heq => hne (BitVec.eq_of_toInt_eq heq)
  have hmul : off.toInt % 8 = 0 ∧ off'.toInt % 8 = 0 := by
    simp only [BitVec.toInt_eq_toNat_cond]
    constructor <;> split <;> omega
  have hlo := BitVec.le_toInt off
  have hhi := BitVec.toInt_lt (x := off)
  have hlo' := BitVec.le_toInt off'
  have hhi' := BitVec.toInt_lt (x := off')
  rw [hsext, hsext]
  apply apart_of_offsets p _ (by omega) (by omega)
  omega

/-! ## Reading and writing locations -/

section

variable {s s' : State} {l l' : Location} {v : Word}

@[simp] theorem put_rbp (h : l.Usable) : (put s l v).regs .rbp = s.regs .rbp := by
  cases l with
  | reg r =>
    obtain ⟨-, -, -, -, hr⟩ := allocatable_ne h
    exact s.setReg_of_ne v hr.symm
  | stack offset => rfl
  | const imm => rfl
  | none => rfl

theorem contents_put_same (h : l.Usable) : contents (put s l v) l = v := by
  cases l with
  | reg r => exact s.setReg_same r v
  | stack offset =>
    rw [put_stack, contents_stack]
    exact read64_writeLow_same s.mem (slotAddress s offset) v
  | const imm => exact h.elim
  | none => exact h.elim

/-- Writing one location leaves the others. -/
theorem contents_put_other (h : l.Usable) (h' : l'.Usable) (hne : l' ≠ l) :
    contents (put s l v) l' = contents s l' := by
  cases l with
  | reg r =>
    cases l' with
    | reg r' =>
      have hr : r' ≠ r := fun heq => hne (congrArg Location.reg heq)
      exact s.setReg_of_ne v hr
    | stack offset =>
      rw [contents_stack, contents_stack, slotAddress, put_rbp h]
      rfl
    | const imm => exact h'.elim
    | none => exact h'.elim
  | stack offset =>
    cases l' with
    | reg r' => rfl
    | stack offset' =>
      have hoff : offset ≠ offset' := fun heq => hne (congrArg Location.stack heq.symm)
      rw [put_stack, contents_stack, contents_stack]
      exact read64_writeLow_apart (slots_apart (s.regs .rbp) h h' hoff)
    | const imm => exact h'.elim
    | none => exact h'.elim
  | const imm => exact h.elim
  | none => exact h.elim

/-! ## Scratch registers -/

/-- Nothing but scratch registers and flags differs. -/
structure Scratched (s s' : State) : Prop where
  regs : ∀ r, r ≠ .rax → r ≠ .rcx → r ≠ .rdx → s'.regs r = s.regs r
  mem : s'.mem = s.mem

theorem Scratched.refl (s : State) : Scratched s s := ⟨fun _ _ _ _ => rfl, rfl⟩

theorem Scratched.trans {s₁ s₂ s₃ : State} (h : Scratched s₁ s₂) (h' : Scratched s₂ s₃) :
    Scratched s₁ s₃ :=
  ⟨fun r hax hcx hdx => (h'.regs r hax hcx hdx).trans (h.regs r hax hcx hdx),
    h'.mem.trans h.mem⟩

/-- The scratch registers. -/
def IsScratch (r : Reg) : Prop := r = .rax ∨ r = .rcx ∨ r = .rdx

theorem Scratched.setReg {r : Reg} (h : Scratched s s') (hr : IsScratch r) (v : Word) :
    Scratched s (s'.setReg r v) := by
  refine ⟨fun r' hax hcx hdx => ?_, h.mem⟩
  have hne : r' ≠ r := by
    rcases hr with rfl | rfl | rfl <;> assumption
  rw [State.setReg_of_ne _ _ hne]
  exact h.regs r' hax hcx hdx

theorem Scratched.withFlags (h : Scratched s s') (f : Option Flags) :
    Scratched s { s' with flags := f } :=
  ⟨h.regs, h.mem⟩

theorem Scratched.rbp (h : Scratched s s') : s'.regs .rbp = s.regs .rbp :=
  h.regs .rbp (by decide) (by decide) (by decide)

/-- Locations survive scratch work. -/
theorem Scratched.contents (h : Scratched s s') (hl : l.Usable) :
    contents s' l = contents s l := by
  cases l with
  | reg r =>
    obtain ⟨hax, hcx, hdx, -, -⟩ := allocatable_ne hl
    exact h.regs r hax hcx hdx
  | stack offset =>
    rw [contents_stack, contents_stack, slotAddress, slotAddress, h.mem, h.rbp]
  | const imm => exact hl.elim
  | none => exact hl.elim

end

end TinyCompile.Jit
