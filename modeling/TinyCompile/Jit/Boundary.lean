import TinyCompile.Jit.Calls

set_option autoImplicit false

/-!
# Jit: the boundary between caller and callee

`encode_call` on the one side and `encode_prologue` on the other agree on where arguments are,
for any number of them and wherever the registers of caller and callee are.
-/

namespace TinyCompile.Jit

open TinyCompile.Machine TinyCompile.X86 TinyCompile.Source TinyCompile.Ir

/-- Behind its prologue the callee has the arguments where it looks for its parameters. -/
def Arrive (ctx : JITContext) (callee : IRFunction) (args : List Word) (s : State) : Prop :=
  ∃ s', execCode (prologueOf ctx callee args.length) s = some s' ∧
    ∀ k (hk : k < args.length),
      contents s' ((ctx.entered callee args.length).vregMap (k + 1)) = args[k]

/-- What the caller, which was in `S` before the arguments, has behind its call. -/
structure Leaves (room : Nat) (dest : Location) (S : State) (v : Word) (s : State) : Prop where
  result : contents s dest = v
  rsp : s.regs .rsp = S.regs .rsp
  kept : ∀ l, l.Kept room S → l ≠ dest → contents s l = contents S l

section

variable {room room' words : Nat} {S s s₁ s₂ : State} {loc : Nat → Location} {pending : List Nat}
  {dest : Location} {args : List Word} {v target next : Word}

theorem put_rsp (hl : dest.Usable) (s : State) (v : Word) :
    (put s dest v).regs .rsp = s.regs .rsp := by
  cases dest with
  | reg r =>
    obtain ⟨-, -, -, hsp, -⟩ := allocatable_ne hl
    exact s.setReg_of_ne v hsp.symm
  | stack offset => rfl
  | const imm => exact hl.elim
  | none => exact hl.elim

/-- The rest of a call, when the callee has returned. -/
theorem ArgsReady.leaves (h : ArgsReady room args (callWords pending) S s₁)
    (hserved : Served room' v (callEntry s₁ target next) s₂) (hlen : pending.length < 2 ^ 16)
    (hdest : dest.Usable) (hroom : room + 2 ^ 20 ≤ room') (hroom' : room' < 2 ^ 62) :
    ∃ s, execCode (cleanupCode pending dest) s₂ = some s ∧ Leaves room dest S v s := by
  have hwords : callWords pending < 2 ^ 16 + 1 := by
    unfold callWords stackArgCount
    omega
  obtain ⟨hrsp₂, hregs₂, habove₂⟩ := h.served hserved (by omega) (by omega)
  obtain ⟨s₃, hexec, hmem₃, hregs₃, hrsp₃⟩ := exec_cleanupCode s₂ pending hlen hdest
  rw [hserved.rax] at hexec
  refine ⟨_, hexec, contents_put_same hdest, ?_, fun l hl hne => ?_⟩
  · rw [put_rsp hdest, hrsp₃, hrsp₂]
    exact BitVec.sub_add_cancel _ _
  · rw [contents_put_other hdest hl.usable hne]
    refine hl.same (fun r hr => ?_) (hmem₃.symm ▸ habove₂)
    have hsp : r ≠ .rsp := by
      rintro rfl
      exact absurd hr (by decide)
    rw [hregs₃ r hsp, hregs₂ r hr]

/-- The code of a call puts the arguments where the prologue of the callee takes them from, and
behind the callee, whatever it did within the convention, the caller has the result and all of
its other locations. -/
theorem call_boundary (ctx : JITContext) {callee : IRFunction}
    (hstack : callee.stackCount ≤ maxIrInstructionsPerFunction)
    (hvregs : callee.vregCount ≤ maxIrInstructionsPerFunction)
    (hkept : ∀ v ∈ pending, (loc v).Kept room S) (hlen : pending.length < 2 ^ 16)
    (hdest : dest.Usable) (haligned : (S.regs .rsp).toNat % 16 = 0)
    (hroom : room + 2 ^ 20 ≤ room') (hroom' : room' < 2 ^ 62) (target next : Word) :
    ∃ s₁, execCode (argumentCode loc pending) S = some s₁ ∧
      Arrive ctx callee (pending.map fun v => contents S (loc v)) (callEntry s₁ target next) ∧
      ∀ v s₂, Served room' v (callEntry s₁ target next) s₂ →
        ∃ s, execCode (cleanupCode pending dest) s₂ = some s ∧ Leaves room dest S v s := by
  have hwords : callWords pending < 2 ^ 16 + 1 := by
    unfold callWords stackArgCount
    omega
  obtain ⟨s₁, hexec, hready⟩ := exec_argumentCode hkept (by omega)
  have haligned₁ : (s₁.regs .rsp).toNat % 16 = 0 := by
    obtain ⟨b, hb⟩ := callWords_even pending
    rw [hready.rsp, hb]
    generalize S.regs .rsp = sp at haligned
    clear hready hexec hkept
    bv_omega
  have hcount : (pending.map fun v => contents S (loc v)).length < 2 ^ 16 := by
    rw [List.length_map]
    exact hlen
  have hentry := hready.entry (by omega) haligned₁ target next
  obtain ⟨s', hprologue, -⟩ :=
    prologue_entered ctx hstack hvregs hcount (callEntry s₁ target next)
  have hplaced : ParamsPlaced room ctx callee _ _ s' :=
    prologue_placed ctx hstack hvregs hcount (by omega) hentry hprologue
  exact ⟨s₁, hexec, ⟨s', hprologue, hplaced.params⟩, fun v s₂ hserved =>
    hready.leaves hserved hlen hdest hroom hroom'⟩

end

/-- A register for the first argument and slots of the frame for the others. -/
def mixedLocations (v : Nat) : Location :=
  if v = 1 then .reg .rbx else .stack (BitVec.ofInt 32 (-8 * v))

/-- A state with a frame of 256 bytes. -/
def framedState : State :=
  ⟨fun r => if r = .rbp then 0x7fff0200 else 0x7fff0100, none, fun _ => 0⟩

theorem call_boundary_seven :
    ∃ s₁, execCode (argumentCode mixedLocations [1, 2, 3, 4, 5, 6, 7]) framedState = some s₁ ∧
      Arrive jitCtxInit { IRFunction.zeroed with stackCount := 1, vregCount := 9 }
        ([1, 2, 3, 4, 5, 6, 7].map fun v => contents framedState (mixedLocations v))
        (callEntry s₁ 0x10000 0x20000) ∧
      ∀ v s₂, Served (2 ^ 61) v (callEntry s₁ 0x10000 0x20000) s₂ →
        ∃ s, execCode (cleanupCode [1, 2, 3, 4, 5, 6, 7] (.reg .rbx)) s₂ = some s ∧
          Leaves (2 ^ 60) (.reg .rbx) framedState v s :=
  have hdest : (Location.reg .rbx).Usable := show isAllocatableRegister .rbx = true by decide
  call_boundary jitCtxInit (by decide) (by decide) (by decide) (by decide) hdest (by decide)
    (by decide) (by decide) _ _

end TinyCompile.Jit
