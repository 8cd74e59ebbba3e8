import TinyCompile.Jit.Slots
import TinyCompile.Jit.Straight
import TinyCompile.Machine.Words
import TinyCompile.X86.Effects

set_option autoImplicit false

/-!
# Jit: the stack pointer

A small logic for code that moves the stack pointer.  `Depth d` says that `rsp` is `d`
bytes below the saved registers, and `Moves` how code changes the depth while it leaves
`rbp` and the words above the slots alone.
-/

namespace TinyCompile.Jit

open TinyCompile.Machine TinyCompile.X86 TinyCompile.Source TinyCompile.Ir

/-! ## The words above the slots -/

/-- The five saved registers, the saved `rbp` and the return address. -/
def frameWords (s : State) : List Word := wordsAt s.mem (s.regs .rbp - 40) 7

/-- `rbp` and the words above the slots are the same. -/
structure Guarded (s s' : State) : Prop where
  rbp : s'.regs .rbp = s.regs .rbp
  words : frameWords s' = frameWords s

theorem Guarded.refl (s : State) : Guarded s s := ⟨rfl, rfl⟩

theorem Guarded.trans {s₁ s₂ s₃ : State} (h : Guarded s₁ s₂) (h' : Guarded s₂ s₃) :
    Guarded s₁ s₃ :=
  ⟨h'.rbp.trans h.rbp, h'.words.trans h.words⟩

theorem guarded_of_mem {s s' : State} (hrbp : s'.regs .rbp = s.regs .rbp)
    (hmem : s'.mem = s.mem) : Guarded s s' := by
  refine ⟨hrbp, ?_⟩
  unfold frameWords
  rw [hrbp, hmem]

/-- A write that ends below the saved registers. -/
theorem guarded_of_write {s s' : State} {x : Int} {n : Nat} {v : Word}
    (hrbp : s'.regs .rbp = s.regs .rbp)
    (hmem : s'.mem = writeLow s.mem (s.regs .rbp + BitVec.ofInt 64 x) n v) (hn : n ≤ 8)
    (habove : x + 8 ≤ -40) (hbelow : -(2 ^ 63 : Int) ≤ x) : Guarded s s' := by
  refine ⟨hrbp, ?_⟩
  unfold frameWords
  have hbase : s.regs .rbp - 40 = s.regs .rbp + BitVec.ofInt 64 (-40) :=
    BitVec.sub_eq_add_neg _ _
  have hapart : Apart (s.regs .rbp + BitVec.ofInt 64 x) 8
      (s.regs .rbp + BitVec.ofInt 64 (-40)) (8 * 7) :=
    apart_of_offsets (s.regs .rbp) (.inl ⟨by omega, by omega⟩) (by omega) (by omega)
  rw [hrbp, hmem, hbase]
  exact wordsAt_writeLow_apart (hapart.mono hn (Nat.le_refl _)) (by omega)

/-! ## Code that keeps the stack pointer -/

/-- The instruction writes neither `rsp` nor `rbp`, and only slots in memory. -/
structure Steady (i : Instr) : Prop where
  rsp : Reg.rsp ∉ i.destRegs
  rbp : Reg.rbp ∉ i.destRegs
  mem : ∀ base disp, i.destMem = some (base, disp) →
    ∃ off : BitVec 32, base = .rbp ∧ disp = off.signExtend 64 ∧ BelowSaved off

/-- Every instruction of the code keeps the stack pointer. -/
def SteadyCode (es : List Encoded) : Prop := ∀ e ∈ es, Steady e.instr

@[simp] theorem steadyCode_nil : SteadyCode [] :=
  fun _ h => absurd h List.not_mem_nil

@[simp] theorem steadyCode_cons {e : Encoded} {es : List Encoded} :
    SteadyCode (e :: es) ↔ Steady e.instr ∧ SteadyCode es := by
  simp [SteadyCode]

@[simp] theorem steadyCode_append {es es' : List Encoded} :
    SteadyCode (es ++ es') ↔ SteadyCode es ∧ SteadyCode es' := by
  simp [SteadyCode, or_imp, forall_and]

theorem exec_steady {i : Instr} (h : Steady i) {s s' : State} (hexec : exec i s = some s') :
    s'.regs .rsp = s.regs .rsp ∧ Guarded s s' := by
  have hframed := exec_framed hexec
  have hrbp := hframed.regs .rbp h.rbp
  refine ⟨hframed.regs .rsp h.rsp, ?_⟩
  rcases hframed.mem with hmem | ⟨base, disp, n, v, hdest, hn, hmem⟩
  · exact guarded_of_mem hrbp hmem
  · obtain ⟨off, rfl, rfl, hoff⟩ := h.mem base disp hdest
    have hlow := BitVec.le_toInt off
    exact guarded_of_write hrbp hmem hn hoff (by omega)

/-- Code that keeps the stack pointer, run to its end. -/
theorem execCode_steady {es : List Encoded} (h : SteadyCode es) {s s' : State}
    (hexec : execCode es s = some s') : s'.regs .rsp = s.regs .rsp ∧ Guarded s s' := by
  induction es generalizing s with
  | nil =>
    obtain rfl := Option.some.inj hexec
    exact ⟨rfl, .refl s⟩
  | cons e es ih =>
    rw [execCode_cons] at hexec
    obtain ⟨s₁, hs₁, hrest⟩ := Option.bind_eq_some_iff.mp hexec
    obtain ⟨hrsp, hguard⟩ := exec_steady (h e (by simp)) hs₁
    obtain ⟨hrsp', hguard'⟩ := ih (fun e' he' => h e' (List.mem_cons_of_mem _ he')) hrest
    exact ⟨hrsp'.trans hrsp, hguard.trans hguard'⟩

/-! ## The depth of the stack -/

/-- `rsp` is `d` bytes below the saved registers. -/
def Depth (d : Nat) (s : State) : Prop :=
  s.regs .rsp = s.regs .rbp - BitVec.ofNat 64 (calleeSavedSize + d)

/-- The depths the frame of a function and the arguments of its calls reach. -/
def maxDepth : Nat := 2 ^ 32

/-- Code that takes the stack from depth `d` to depth `d'`. -/
def Moves (es : List Encoded) (d d' : Nat) : Prop :=
  ∀ s s', Depth d s → execCode es s = some s' → Depth d' s' ∧ Guarded s s'

theorem Moves.steady {es : List Encoded} (h : SteadyCode es) (d : Nat) : Moves es d d := by
  intro s s' hd hexec
  obtain ⟨hrsp, hguard⟩ := execCode_steady h hexec
  refine ⟨?_, hguard⟩
  unfold Depth
  rw [hrsp, hguard.rbp]
  exact hd

theorem Moves.nil (d : Nat) : Moves [] d d := .steady steadyCode_nil d

theorem Moves.seq {es es' : List Encoded} {d d₁ d' : Nat} (h : Moves es d d₁)
    (h' : Moves es' d₁ d') : Moves (es ++ es') d d' := by
  intro s s' hd hexec
  rw [execCode_append] at hexec
  obtain ⟨s₁, hs₁, hrest⟩ := Option.bind_eq_some_iff.mp hexec
  obtain ⟨hd₁, hguard⟩ := h s s₁ hd hs₁
  obtain ⟨hd', hguard'⟩ := h' s₁ s' hd₁ hrest
  exact ⟨hd', hguard.trans hguard'⟩

theorem Moves.push (r : Reg) {d : Nat} (hd : d ≤ maxDepth) : Moves [push r] d (d + 8) := by
  intro s s' hs hexec
  have hmax : maxDepth = 2 ^ 32 := rfl
  have hsize : calleeSavedSize = 40 := rfl
  rw [execCode_one] at hexec
  obtain rfl := Option.some.inj hexec
  unfold Depth at hs
  have hsp : s.regs .rsp - 8 = s.regs .rbp + BitVec.ofInt 64 (-(40 + d + 8 : Int)) := by
    have hneg : BitVec.ofInt 64 (-(40 + d + 8 : Int)) = -(BitVec.ofNat 64 (40 + d + 8)) := by
      rw [BitVec.ofInt_neg]
      rfl
    rw [hs, hneg, hsize]
    bv_omega
  have hregs : (s.pushWord (s.regs r)).regs = (s.setReg .rsp (s.regs .rsp - 8)).regs := rfl
  have hrbp : (s.pushWord (s.regs r)).regs .rbp = s.regs .rbp := by
    rw [hregs, State.setReg_of_ne _ _ (by decide)]
  have hrsp : (s.pushWord (s.regs r)).regs .rsp = s.regs .rsp - 8 := by
    rw [hregs, State.setReg_same]
  refine ⟨?_, ?_⟩
  · unfold Depth
    show (s.pushWord (s.regs r)).regs .rsp = (s.pushWord (s.regs r)).regs .rbp - _
    rw [hrsp, hrbp, hs, hsize]
    bv_omega
  · refine guarded_of_write hrbp (n := 8) (v := s.regs r) ?_ (Nat.le_refl 8)
      (x := -(40 + d + 8 : Int)) (by omega) (by omega)
    rw [← hsp]
    rfl

theorem Moves.pop {r : Reg} (hsp : r ≠ .rsp) (hbp : r ≠ .rbp) (d : Nat) :
    Moves [pop r] (d + 8) d := by
  intro s s' hs hexec
  rw [execCode_one] at hexec
  have hregs := (exec_framed hexec).regs .rbp (by
    show Reg.rbp ∉ [Reg.rsp, r]
    simp [hbp.symm])
  obtain rfl := Option.some.inj hexec
  refine ⟨?_, guarded_of_mem hregs rfl⟩
  unfold Depth at hs ⊢
  rw [hregs]
  show ((s.setReg .rsp (s.regs .rsp + 8)).setReg r _).regs .rsp = _
  rw [State.setReg_of_ne _ _ hsp.symm, State.setReg_same, hs]
  bv_omega

theorem signExtend_ofNat {n : Nat} (hn : n < 2 ^ 31) :
    (BitVec.ofNat 32 n).signExtend 64 = BitVec.ofNat 64 n := by
  apply BitVec.eq_of_toInt_eq
  rw [BitVec.toInt_signExtend_of_le (by omega), toInt_ofNat_small (by omega),
    toInt_ofNat_small (by omega)]

/-- `sub rsp, n`. -/
theorem Moves.sub {n : Nat} (d : Nat) (hn : n < 2 ^ 31) :
    Moves [subRsp (BitVec.ofNat 32 n)] d (d + n) := by
  intro s s' hs hexec
  rw [execCode_one] at hexec
  have hregs := (exec_framed hexec).regs .rbp (show Reg.rbp ∉ [Reg.rsp] by decide)
  obtain rfl := Option.some.inj hexec
  refine ⟨?_, guarded_of_mem hregs rfl⟩
  unfold Depth at hs ⊢
  rw [hregs]
  show (s.setReg .rsp (s.regs .rsp - (BitVec.ofNat 32 n).signExtend 64)).regs .rsp = _
  rw [State.setReg_same, hs, signExtend_ofNat hn]
  bv_omega

/-- `add rsp, n`. -/
theorem Moves.add {n : Nat} (d : Nat) (hn : n < 2 ^ 31) :
    Moves [addRsp (BitVec.ofNat 32 n)] (d + n) d := by
  intro s s' hs hexec
  rw [execCode_one] at hexec
  have hregs := (exec_framed hexec).regs .rbp (show Reg.rbp ∉ [Reg.rsp] by decide)
  obtain rfl := Option.some.inj hexec
  refine ⟨?_, guarded_of_mem hregs rfl⟩
  unfold Depth at hs ⊢
  rw [hregs]
  show (s.setReg .rsp (s.regs .rsp + (BitVec.ofNat 32 n).signExtend 64)).regs .rsp = _
  rw [State.setReg_same, hs, signExtend_ofNat hn]
  bv_omega

end TinyCompile.Jit
