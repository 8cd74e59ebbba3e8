import TinyCompile.Jit.Balance
import TinyCompile.Machine.Regions

set_option autoImplicit false

/-!
# Jit: the calling convention

What a callee finds and what it leaves, and that the code of a call puts the arguments where
the callee looks for them.  Memory from `rsp` up belongs to the callers; how much of it is
protected is a parameter, since every call goes deeper into the address space.
-/

namespace TinyCompile.Jit

open TinyCompile.Machine TinyCompile.X86 TinyCompile.Source TinyCompile.Ir

/-! ## The convention -/

/-- The state in which a function is entered: its return address is on top of the stack, six
arguments are in registers and the others behind the return address. -/
structure Entry (args : List Word) (s : State) : Prop where
  regs : (argRegisters.take (args.take 6).length).map s.regs = args.take 6
  stack : wordsAt s.mem (s.regs .rsp + 8) (args.length - 6) = args.drop 6
  aligned : (s.regs .rsp).toNat % 16 = 8

/-- What a function leaves that was entered in `s` and returned `v` in `s'`: the return
address is popped, and the registers and the memory of its callers are as they were. -/
structure Served (room : Nat) (v : Word) (s s' : State) : Prop where
  rsp : s'.regs .rsp = s.regs .rsp + 8
  rax : s'.regs .rax = v
  regs : ∀ r ∈ preservedRegs, s'.regs r = s.regs r
  above : SameBytes (s.regs .rsp) room s.mem s'.mem

/-! ## Pushing -/

/-- Words have been pushed since `S`. -/
structure Stacked (room : Nat) (S : State) (ws : List Word) (s : State) : Prop where
  rsp : s.regs .rsp = S.regs .rsp - BitVec.ofNat 64 (8 * ws.length)
  regs : ∀ r, r ≠ .rax → r ≠ .rsp → s.regs r = S.regs r
  words : stackWords s ws.length = ws
  above : SameBytes (S.regs .rsp) room S.mem s.mem

/-- A location that pushes leave alone. -/
def Location.Kept (room : Nat) (S : State) : Location → Prop
  | .reg r => isAllocatableRegister r = true
  | .stack offset => offset.toNat % 8 = 0 ∧ (slotAddress S offset - S.regs .rsp).toNat + 8 ≤ room
  | _ => False

instance (room : Nat) (S : State) : (l : Location) → Decidable (l.Kept room S)
  | .reg r => inferInstanceAs (Decidable (isAllocatableRegister r = true))
  | .stack offset => inferInstanceAs (Decidable (offset.toNat % 8 = 0 ∧
      (slotAddress S offset - S.regs .rsp).toNat + 8 ≤ room))
  | .const _ => .isFalse id
  | .none => .isFalse id

theorem Location.Kept.usable {room : Nat} {S : State} {l : Location} (h : l.Kept room S) :
    l.Usable := by
  cases l with
  | reg r => exact h
  | stack offset => exact h.1
  | const imm => exact h
  | none => exact h

section

variable {room : Nat} {S s : State} {ws : List Word} {l : Location}

theorem Stacked.refl (room : Nat) (S : State) : Stacked room S [] S :=
  ⟨(BitVec.sub_zero _).symm, fun _ _ _ => rfl, rfl, .refl _ _ _⟩

theorem Stacked.setRax (h : Stacked room S ws s) (v : Word) : Stacked room S ws (s.setReg .rax v) :=
  ⟨(s.setReg_of_ne v (by decide)).trans h.rsp,
    fun r hax hsp => (s.setReg_of_ne v hax).trans (h.regs r hax hsp),
    (stackWords_setReg s v _ (by decide)).trans h.words, h.above⟩

theorem Stacked.push (h : Stacked room S ws s) (hroom : room + 8 * (ws.length + 1) < 2 ^ 64)
    (v : Word) : Stacked room S (v :: ws) (s.pushWord v) := by
  have hrsp := h.rsp
  refine ⟨?_, fun r hax hsp => (pushWord_of_ne s v hsp).trans (h.regs r hax hsp), ?_, ?_⟩
  · rw [pushWord_rsp, hrsp, List.length_cons]
    bv_omega
  · rw [List.length_cons, stackWords_push _ _ (by omega), h.words]
  · refine h.above.trans (sameBytes_writeLow ?_ (Nat.le_refl 8))
    rw [hrsp]
    constructor <;> bv_omega

theorem Stacked.contents (h : Stacked room S ws s) (hl : l.Kept room S) :
    contents s l = contents S l := by
  cases l with
  | reg r =>
    obtain ⟨hax, -, -, hsp, -⟩ := allocatable_ne hl
    exact h.regs r hax hsp
  | stack offset =>
    rw [contents_stack, contents_stack, slotAddress, h.regs .rbp (by decide) (by decide)]
    exact h.above.read64 hl.2
  | const imm => exact hl.elim
  | none => exact hl.elim

/-- `push_stack_args` on one argument. -/
theorem exec_pushStackArg (h : Stacked room S ws s) (hroom : room + 8 * (ws.length + 1) < 2 ^ 64)
    (hl : l.Kept room S) : ∃ s', execCode (pushStackArg l) s = some s' ∧
      Stacked room S (contents S l :: ws) s' := by
  have hload := exec_loadCode (s := s) .rax hl.usable
  rw [h.contents hl] at hload
  refine ⟨_, execCode_seq hload rfl, ?_⟩
  rw [show (s.setReg .rax (Jit.contents S l)).regs .rax = Jit.contents S l from s.setReg_same _ _]
  exact (h.setRax _).push hroom _

/-- The push of one register argument. -/
theorem exec_pushRegArg (h : Stacked room S ws s) (hroom : room + 8 * (ws.length + 1) < 2 ^ 64)
    (hl : l.Kept room S) : ∃ s', execCode (pushRegArg l) s = some s' ∧
      Stacked room S (contents S l :: ws) s' := by
  unfold pushRegArg
  split
  · rename_i reg
    refine ⟨_, rfl, ?_⟩
    rw [← h.contents hl]
    exact h.push hroom _
  · exact exec_pushStackArg h hroom hl

/-- Pushing the contents of several locations. -/
theorem exec_pushAll {g : Location → List Encoded} (loc : Nat → Location)
    (hg : ∀ {ws s l}, Stacked room S ws s → room + 8 * (ws.length + 1) < 2 ^ 64 →
      l.Kept room S → ∃ s', execCode (g l) s = some s' ∧ Stacked room S (contents S l :: ws) s')
    (vs : List Nat) (hvs : ∀ v ∈ vs, (loc v).Kept room S) (h : Stacked room S ws s)
    (hroom : room + 8 * (ws.length + vs.length) < 2 ^ 64) :
    ∃ s', execCode (vs.flatMap fun v => g (loc v)) s = some s' ∧
      Stacked room S ((vs.map fun v => contents S (loc v)).reverse ++ ws) s' := by
  induction vs generalizing s ws with
  | nil => exact ⟨s, rfl, h⟩
  | cons v vs ih =>
    rw [List.length_cons] at hroom
    obtain ⟨s₁, hexec, hs₁⟩ := hg h (by omega) (hvs v (by simp))
    obtain ⟨s', hrest, hs'⟩ := ih (fun w hw => hvs w (List.mem_cons_of_mem _ hw)) hs₁
      (by rw [List.length_cons]; omega)
    refine ⟨s', ?_, ?_⟩
    · rw [List.flatMap_cons]
      exact execCode_seq hexec hrest
    · rw [List.map_cons, List.reverse_cons, List.append_assoc, List.singleton_append]
      exact hs'

end

/-! ## The arguments of a call -/

theorem execCode_mem {es : List Encoded} (hes : ∀ e ∈ es, e.instr.destMem = none) {s s' : State}
    (h : execCode es s = some s') : s'.mem = s.mem := by
  induction es generalizing s with
  | nil =>
    obtain rfl := Option.some.inj h
    rfl
  | cons e es ih =>
    rw [execCode_cons] at h
    obtain ⟨s₁, hs₁, hrest⟩ := Option.bind_eq_some_iff.mp h
    have hmem : s₁.mem = s.mem := by
      rcases (exec_framed hs₁).mem with hmem | ⟨base, disp, n, v, hdest, -, -⟩
      · exact hmem
      · rw [hes e (by simp)] at hdest
        cases hdest
    exact (ih (fun e' he' => hes e' (List.mem_cons_of_mem _ he')) hrest).trans hmem

/-- The state behind the code of the arguments, which started in `S`. -/
structure ArgsReady (room : Nat) (args : List Word) (words : Nat) (S s : State) : Prop where
  rsp : s.regs .rsp = S.regs .rsp - BitVec.ofNat 64 (8 * words)
  regs : (argRegisters.take (args.take 6).length).map s.regs = args.take 6
  stack : stackWords s (args.length - 6) = args.drop 6
  preserved : ∀ r ∈ preservedRegs, s.regs r = S.regs r
  above : SameBytes (S.regs .rsp) room S.mem s.mem

/-- No argument register is one that a callee preserves. -/
theorem preservedRegs_not_arg {r : Reg} (hr : r ∈ preservedRegs) {n : Nat} (hn : n ≤ 6) :
    r ∉ argRegisters.take n := by
  have hsix : ∀ r ∈ preservedRegs, r ∉ argRegisters.take 6 := by decide
  exact fun hmem => hsix r hr (List.take_subset_take_left _ hn hmem)

/-- The code of the arguments leaves them where the callee looks for them. -/
theorem exec_argumentCode {room : Nat} {S : State} {loc : Nat → Location} {pending : List Nat}
    (hkept : ∀ v ∈ pending, (loc v).Kept room S)
    (hroom : room + 8 * (pending.length + 1) < 2 ^ 64) :
    ∃ s, execCode (argumentCode loc pending) S = some s ∧
      ArgsReady room (pending.map fun v => contents S (loc v)) (callWords pending) S s := by
  have hcount : stackArgCount pending = pending.length - 6 := rfl
  -- the pad
  have hpad : ∃ s₁ ws, execCode (padCode pending) S = some s₁ ∧ Stacked room S ws s₁ ∧
      ws.length = stackArgCount pending % 2 := by
    unfold padCode
    split
    · generalize hs₁ : S.setReg .rsp (S.regs .rsp - 8) = s₁
      refine ⟨{ s₁ with flags := some (AluOp.eval .sub (S.regs .rsp) 8).2 },
        [read64 S.mem (S.regs .rsp - 8)], ?_, ⟨?_, fun r hax hsp => ?_, ?_, ?_⟩, ?_⟩
      · rw [← hs₁]
        rfl
      · show s₁.regs .rsp = _
        rw [← hs₁, State.setReg_same]
        rfl
      · show s₁.regs r = _
        rw [← hs₁, State.setReg_of_ne _ _ hsp]
      · show [read64 s₁.mem (s₁.regs .rsp)] = _
        rw [← hs₁, State.setReg_same]
        rfl
      · show SameBytes _ room S.mem s₁.mem
        rw [← hs₁]
        exact .refl _ _ _
      · rw [List.length_singleton]
        omega
    · exact ⟨S, [], rfl, .refl room S, by rw [List.length_nil]; omega⟩
  obtain ⟨s₁, pad, hexec₁, hs₁, hlen⟩ := hpad
  have hdrop : (pending.drop 6).length = pending.length - 6 := List.length_drop
  have htake : (pending.take 6).length = min 6 pending.length := List.length_take
  obtain ⟨s₂, hexec₂, hs₂⟩ := exec_pushAll loc exec_pushStackArg (pending.drop 6).reverse
    (fun v hv => hkept v (List.mem_of_mem_drop (List.mem_reverse.mp hv))) hs₁
    (by rw [List.length_reverse]; omega)
  rw [List.map_reverse, List.reverse_reverse] at hs₂
  obtain ⟨s₃, hexec₃, hs₃⟩ := exec_pushAll loc exec_pushRegArg (pending.take 6).reverse
    (fun v hv => hkept v (List.mem_of_mem_take (List.mem_reverse.mp hv))) hs₂
    (by simp only [List.length_reverse, List.length_append, List.length_map]; omega)
  rw [List.map_reverse, List.reverse_reverse] at hs₃
  -- the pops
  have hle : (pending.take 6).length ≤ 6 := by omega
  have hargs : (argRegisters.take (pending.take 6).length).length = (pending.take 6).length := by
    rw [List.length_take]
    exact Nat.min_eq_left (Nat.le_trans hle (by decide))
  have hwords := hs₃.words
  generalize hfront : (pending.take 6).map (fun v => contents S (loc v)) = front at hs₃ hwords
  generalize hback : (pending.drop 6).map (fun v => contents S (loc v)) = back at hs₃ hwords
  have hfrontLen : front.length = (pending.take 6).length := by rw [← hfront, List.length_map]
  have hbackLen : back.length = pending.length - 6 := by rw [← hback, List.length_map, hdrop]
  rw [List.length_append, hfrontLen, ← hargs] at hwords
  obtain ⟨s', hexec', hrsp', hregs', hkept', hrest⟩ := @exec_pops
    (argRegisters.take (pending.take 6).length)
    (fun hmem => argRegisters_free _ (List.mem_of_mem_take hmem) |>.1 rfl)
    ((show argRegisters.Nodup by decide).sublist (List.take_sublist _ _)) s₃ front _ _ (by omega)
    hwords
  have hmem' : s'.mem = s₃.mem := by
    refine execCode_mem (fun e he => ?_) hexec'
    obtain ⟨r, -, rfl⟩ := List.mem_map.mp he
    rfl
  refine ⟨s', ?_, ?_, ?_, ?_, fun r hr => ?_, ?_⟩
  · exact execCode_seq (execCode_seq (execCode_seq hexec₁ hexec₂) hexec₃) hexec'
  · rw [hrsp', hs₃.rsp, hargs, List.length_append, List.length_append, hlen, hfrontLen, hbackLen]
    unfold callWords
    rw [hcount]
    bv_omega
  · rw [← List.map_take, hfront, hfrontLen]
    exact hregs'
  · rw [← List.map_drop, hback, List.length_map, ← hbackLen]
    unfold stackWords at hrest ⊢
    rw [List.length_append, wordsAt_add] at hrest
    exact (List.append_inj hrest (by simp)).1
  · have hne : r ≠ .rax ∧ r ≠ .rsp := by
      constructor <;> (rintro rfl; exact absurd hr (by decide))
    rw [hkept' r hne.2 (preservedRegs_not_arg hr hle)]
    exact hs₃.regs r hne.1 hne.2
  · rw [hmem']
    exact hs₃.above

section

variable {room room' words : Nat} {args : List Word} {S s s' : State} {target next v : Word}

/-- The state in which a callee is entered. -/
def callEntry (s : State) (target next : Word) : State := (s.setReg .rax target).pushWord next

theorem callEntry_rsp : (callEntry s target next).regs .rsp = s.regs .rsp - 8 := by
  unfold callEntry
  rw [pushWord_rsp, State.setReg_of_ne _ _ (by decide)]

theorem callEntry_regs {r : Reg} (hax : r ≠ .rax) (hsp : r ≠ .rsp) :
    (callEntry s target next).regs r = s.regs r := by
  unfold callEntry
  rw [pushWord_of_ne _ _ hsp, State.setReg_of_ne _ _ hax]

theorem callEntry_returns : read64 (callEntry s target next).mem
    ((callEntry s target next).regs .rsp) = next :=
  read64_writeLow_same _ _ _

/-- The callee finds what the convention says. -/
theorem ArgsReady.entry (h : ArgsReady room args words S s) (hlen : args.length < 2 ^ 32)
    (haligned : (s.regs .rsp).toNat % 16 = 0) (target next : Word) :
    Entry args (callEntry s target next) := by
  refine ⟨?_, ?_, ?_⟩
  · refine (List.map_congr_left fun r hr => ?_).trans h.regs
    refine callEntry_regs (s := s) ?_ ?_
    · rintro rfl
      exact absurd (List.mem_of_mem_take hr) (by decide)
    · rintro rfl
      exact absurd (List.mem_of_mem_take hr) (by decide)
  · have hpush := stackWords_push (s.setReg .rax target) next (n := args.length - 6) (by omega)
    rw [stackWords_setReg _ _ _ (by decide), h.stack] at hpush
    exact (List.cons.inj hpush).2
  · rw [callEntry_rsp]
    bv_omega

/-- What the caller finds when its callee has returned. -/
theorem ArgsReady.served (h : ArgsReady room args words S s)
    (hserved : Served room' v (callEntry s target next) s')
    (hroom : room + 8 * (words + 1) ≤ room') (hroom' : room' < 2 ^ 64) :
    s'.regs .rsp = S.regs .rsp - BitVec.ofNat 64 (8 * words) ∧
      (∀ r ∈ preservedRegs, s'.regs r = S.regs r) ∧ SameBytes (S.regs .rsp) room S.mem s'.mem := by
  have hrsp := h.rsp
  refine ⟨?_, fun r hr => ?_, ?_⟩
  · rw [hserved.rsp, callEntry_rsp, hrsp]
    exact BitVec.sub_add_cancel _ _
  · have hne : r ≠ .rax ∧ r ≠ .rsp := by
      constructor <;> (rintro rfl; exact absurd hr (by decide))
    rw [hserved.regs r hr, callEntry_regs hne.1 hne.2, h.preserved r hr]
  · have hpushed : SameBytes (S.regs .rsp) room s.mem (callEntry s target next).mem := by
      refine sameBytes_writeLow ?_ (Nat.le_refl 8)
      rw [State.setReg_of_ne _ _ (by decide), hrsp]
      constructor <;> bv_omega
    refine h.above.trans (hpushed.trans (hserved.above.mono ?_))
    rw [callEntry_rsp, hrsp]
    bv_omega

/-- A callee that keeps the convention returns as far as its caller's frame is concerned. -/
theorem Served.returned (hserved : Served room' v (callEntry s target next) s') (stackArgs : Nat)
    (hframe : (s.regs .rbp + 16 - s.regs .rsp).toNat + 8 ≤ room') (hroom' : room' < 2 ^ 64) :
    Returned stackArgs (s.setReg .rax target) s' := by
  have hrsp : (s.setReg .rax target).regs .rsp = s.regs .rsp := s.setReg_of_ne _ (by decide)
  have hrbp : (s.setReg .rax target).regs .rbp = s.regs .rbp := s.setReg_of_ne _ (by decide)
  refine ⟨?_, ?_, fun n hn => ?_⟩
  · rw [hserved.rsp, callEntry_rsp, hrsp]
    exact BitVec.sub_add_cancel _ _
  · rw [hserved.regs .rbp (by decide), callEntry_regs (by decide) (by decide), hrbp]
  · rw [hrsp, hrbp] at hn
    rw [hrsp]
    have hpushed : SameBytes (s.regs .rsp) (room' - 8) s.mem (callEntry s target next).mem := by
      refine sameBytes_writeLow ?_ (Nat.le_refl 8)
      rw [State.setReg_of_ne _ _ (by decide)]
      constructor <;> bv_omega
    have hcallee : SameBytes (s.regs .rsp) (room' - 8) (callEntry s target next).mem s'.mem := by
      refine hserved.above.mono ?_
      rw [callEntry_rsp]
      bv_omega
    refine (hpushed.trans hcallee).wordsAt ?_
    bv_omega

end

end TinyCompile.Jit
