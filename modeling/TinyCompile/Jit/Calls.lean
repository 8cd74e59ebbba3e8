import TinyCompile.Jit.Simulate

set_option autoImplicit false

/-!
# Jit: calls and returns follow the instructions

At a call the callee finds its arguments, and whatever keeps the calling convention leaves a
state that matches again behind it.  A return keeps the convention towards the caller.
-/

namespace TinyCompile.Jit

open TinyCompile.Machine TinyCompile.X86 TinyCompile.Source TinyCompile.Logic TinyCompile.Ir

section

variable {room room' : Nat} {ctx : JITContext} {f : IRFunction} {p : Nat} {S s s' s₁ s₂ : State}
  {rs rs' : RunState} {pre post : List IRInstruction} {inst : IRInstruction} {l : Location}

/-! ## What a call keeps -/

theorem allocatable_preserved {r : Reg} (h : isAllocatableRegister r = true) :
    r ∈ preservedRegs := by
  revert h
  cases r <;> decide

/-- A location that a callee leaves alone. -/
theorem Location.Kept.same (hl : l.Kept room S) (hregs : ∀ r ∈ preservedRegs, s.regs r = S.regs r)
    (habove : SameBytes (S.regs .rsp) room S.mem s.mem) : contents s l = contents S l := by
  cases l with
  | reg r => exact hregs r (allocatable_preserved hl)
  | stack offset =>
    rw [contents_stack, contents_stack, slotAddress, hregs .rbp (by decide)]
    exact habove.read64 hl.2
  | const imm => exact hl.elim
  | none => exact hl.elim

/-- What follows a call takes the arguments from the stack and stores the result. -/
theorem exec_cleanupCode (s : State) (pending : List Nat) (hlen : pending.length < 2 ^ 16)
    (hl : l.Usable) : ∃ s₁,
    execCode (cleanupCode pending l) s = some (put s₁ l (s.regs .rax)) ∧ s₁.mem = s.mem ∧
      (∀ r, r ≠ .rsp → s₁.regs r = s.regs r) ∧
      s₁.regs .rsp = s.regs .rsp + BitVec.ofNat 64 (8 * callWords pending) := by
  have hcount : stackArgCount pending = pending.length - 6 := rfl
  have hsize : cleanupSize pending = 8 * callWords pending := rfl
  unfold cleanupCode
  split
  · have hsmall : cleanupSize pending < 2 ^ 31 := by
      rw [hsize]
      unfold callWords
      omega
    have himm : (BitVec.ofNat 32 (cleanupSize pending)).signExtend 64 =
        BitVec.ofNat 64 (8 * callWords pending) := signExtend_ofNat hsmall
    generalize hs₁ : s.setReg .rsp (s.regs .rsp + BitVec.ofNat 64 (8 * callWords pending)) = s₁
    generalize hflags : some (AluOp.eval .add (s.regs .rsp)
      (BitVec.ofNat 64 (8 * callWords pending))).2 = flags
    have hadd : execCode [addRsp (BitVec.ofNat 32 (cleanupSize pending))] s =
        some { s₁ with flags := flags } := by
      rw [← hs₁, ← hflags, ← himm]
      rfl
    have hregs : ∀ r, r ≠ .rsp → s₁.regs r = s.regs r := fun r hr => by
      rw [← hs₁, State.setReg_of_ne _ _ hr]
    refine ⟨{ s₁ with flags := flags }, ?_, ?_, hregs, ?_⟩
    · refine execCode_seq hadd ?_
      rw [exec_storeCode (.inl rfl) hl, ← hregs .rax (by decide)]
    · show s₁.mem = s.mem
      rw [← hs₁, State.setReg_mem]
    · show s₁.regs .rsp = _
      rw [← hs₁, State.setReg_same]
  · have hzero : callWords pending = 0 := by
      unfold callWords
      omega
    refine ⟨s, exec_storeCode (.inl rfl) hl, rfl, fun _ _ => rfl, ?_⟩
    rw [hzero]
    exact (BitVec.add_zero _).symm

/-! ## In front of a call -/

/-- A pending argument is in a location that the pushes and the callee leave alone. -/
theorem Matches.argument (hf : Runnable p f)
    (h : Matches room ctx f p S rs ⟨pre, inst :: post, s⟩) (hop : inst.opcode = .call)
    (hroom : 2 ^ 32 ≤ room') {v : Nat} (hv : v ∈ pendingAt [] pre) :
    (locationsAt ctx f p pre inst v).Kept room' s ∧
      contents s (locationsAt ctx f p pre inst v) = rs.regs v := by
  have htouched : v ∈ touched (pendingAt [] pre) inst := by
    have hsplit : v ∈ (pendingAt [] pre).take 6 ++ (pendingAt [] pre).drop 6 := by
      rwa [List.take_append_drop]
    rw [List.mem_append] at hsplit
    simp [touched, hop, hsplit.symm]
  obtain ⟨hloc, hne⟩ := h.located htouched
  rcases mem_pendingAt hv with hnil | ⟨arg, harg, hargOp, rfl⟩
  · cases hnil
  · have hmem : arg ∈ f.instructions := by
      rw [h.split]
      exact List.mem_append_left _ harg
    have hrange := hf.wellFormed.piece.uses arg hmem arg.src1
      (by simp [IRInstruction.uses, hargOp])
    have hparams := hf.params_lt
    have hkept : (locationOf ctx f p arg.src1).Kept room' s :=
      locationOf_kept hf h.balanced.depth (by omega) (hf.argument arg hmem hargOp) hne hroom
    rw [hloc]
    exact ⟨hkept, h.pending _ hv⟩

/-- The code of the arguments runs, and leaves them where the callee looks for them, on a
stack that is aligned. -/
theorem Matches.ready (hf : Runnable p f)
    (h : Matches room ctx f p S rs ⟨pre, inst :: post, s⟩) (hop : inst.opcode = .call)
    (hroom : room < 2 ^ 63) (haligned : (S.regs .rbp).toNat % 16 = 0) :
    ∃ s₁, execCode (argumentCode (locationsAt ctx f p pre inst) (pendingAt [] pre)) s = some s₁ ∧
      ArgsReady (room + 2 ^ 32) rs.args (callWords (pendingAt [] pre)) s s₁ ∧
      (s₁.regs .rsp).toNat % 16 = 0 := by
  obtain ⟨m, -, hsize, hpending⟩ := callDepth_bounds hf.stack hf.vregs hf.encodable h.split
  have harguments := fun v hv => h.argument hf hop (Nat.le_add_left (2 ^ 32) room) (v := v) hv
  obtain ⟨s₁, hexec, hready⟩ := exec_argumentCode (fun v hv => (harguments v hv).1) (by omega)
  have hargs : (pendingAt [] pre).map (fun v => contents s (locationsAt ctx f p pre inst v)) =
      rs.args := by
    rw [h.args]
    exact List.map_congr_left fun v hv => (harguments v hv).2
  rw [hargs] at hready
  refine ⟨s₁, hexec, hready, ?_⟩
  have hdepth : s.regs .rsp = s.regs .rbp -
      BitVec.ofNat 64 (calleeSavedSize + calculateAlignedStackSize f) := h.balanced.depth
  have hrbp : s.regs .rbp = S.regs .rbp := h.balanced.guard.rbp
  have hsaved : calleeSavedSize = 40 := rfl
  have hwords : callWords (pendingAt [] pre) ≤ 64 := by
    unfold callWords stackArgCount
    omega
  obtain ⟨a, ha⟩ := stackSize_aligned f
  obtain ⟨b, hb⟩ := callWords_even (pendingAt [] pre)
  rw [hready.rsp, hdepth, hrbp, hsaved, ha, hb]
  have ha' : 16 * a < 2 ^ 32 := by omega
  have hb' : b ≤ 32 := by omega
  clear hdepth hrbp harguments hready hexec h ha hb
  generalize S.regs .rbp = bp at haligned
  bv_omega

/-! ## Behind a call -/

/-- When the callee has returned, the rest of the call runs and the states match behind it. -/
theorem Matches.behind {v target next : Word}
    (h : Matches room ctx f p S rs ⟨pre, inst :: post, s⟩) (calls : List Call)
    (hf : Runnable p f) (hop : inst.opcode = .call)
    (hready : ArgsReady (room + 2 ^ 32) rs.args (callWords (pendingAt [] pre)) s s₁)
    (hargs : execCode (argumentCode (locationsAt ctx f p pre inst) (pendingAt [] pre)) s = some s₁)
    (hserved : Served room' v (callEntry s₁ target next) s₂) (hroom : room + 2 ^ 33 ≤ room')
    (hroom' : room' < 2 ^ 63) :
    ∃ s', execCode (cleanupCode (pendingAt [] pre) (locationsAt ctx f p pre inst inst.dest)) s₂ =
        some s' ∧
      Matches room ctx f p S (RunState.setReg { rs with args := [], calls := calls } inst.dest v)
        ⟨pre ++ [inst], post, s'⟩ := by
  obtain ⟨m, -, hsize, hpending⟩ := callDepth_bounds hf.stack hf.vregs hf.encodable h.split
  have hwords : callWords (pendingAt [] pre) ≤ 64 := by
    unfold callWords stackArgCount
    omega
  obtain ⟨hrsp₂, hregs₂, habove₂⟩ := hready.served hserved (by omega) (by omega)
  have hmem : inst ∈ f.instructions := List.mem_of_getElem? h.get
  have hdef : inst.defines = some inst.dest := by simp [IRInstruction.defines, hop]
  have hplain : inst.target = none := by simp [IRInstruction.target, hop]
  have hret : inst.opcode ≠ .ret := by simp [hop]
  have hflow := flows_next h.get hplain hret
  obtain ⟨hloc, hne⟩ := h.located (defines_touched hdef)
  have husable := locationOf_usable hne
  have hrange := hf.wellFormed.piece.defines inst hmem _ hdef
  have hparams := hf.params_lt
  have hdest : inst.dest < f.vregCount := by omega
  rw [hloc]
  obtain ⟨s₃, hexec, hmem₃, hregs₃, -⟩ :=
    exec_cleanupCode s₂ (pendingAt [] pre) (by omega) husable
  rw [hserved.rax] at hexec
  have hpreserved₃ : ∀ r ∈ preservedRegs, s₃.regs r = s.regs r := by
    intro r hr
    have hsp : r ≠ .rsp := by
      rintro rfl
      exact absurd hr (by decide)
    rw [hregs₃ r hsp, hregs₂ r hr]
  have habove₃ : SameBytes (s.regs .rsp) (room + 2 ^ 32) s.mem s₃.mem := by
    rw [hmem₃]
    exact habove₂
  have hdepth : s.regs .rsp = s.regs .rbp -
      BitVec.ofNat 64 (calleeSavedSize + calculateAlignedStackSize f) := h.balanced.depth
  have hsaved : calleeSavedSize = 40 := rfl
  have hrbp₃ : s₃.regs .rbp = S.regs .rbp :=
    (hpreserved₃ .rbp (by decide)).trans h.balanced.guard.rbp
  -- control
  have hitems : itemsAt ctx f p pre inst =
      (argumentCode (locationsAt ctx f p pre inst) (pendingAt [] pre)).map .code ++
        .callSite inst.funcName ::
          (callRax :: cleanupCode (pendingAt [] pre) (locationOf ctx f p inst.dest)).map .code := by
    rw [← hloc]
    simp only [itemsAt, itemsOf, hop]
  have hreturned : Returned (stackArgCount (pendingAt [] pre)) (s₁.setReg .rax target) s₂ := by
    refine hserved.returned _ ?_ (by omega)
    rw [hready.preserved .rbp (by decide), hready.rsp, hdepth, hsaved]
    generalize calculateAlignedStackSize f = size at hsize
    generalize callWords (pendingAt [] pre) = words at hwords
    generalize s.regs .rbp = bp
    clear hdepth hrsp₂ hready
    have hle : (bp + 16 - (bp - BitVec.ofNat 64 (40 + size) - BitVec.ofNat 64 (8 * words))).toNat ≤
        56 + size + 8 * words := by
      bv_omega
    omega
  have hcontrol : Flow ctx f p ⟨pre, inst :: post, s⟩
      ⟨pre ++ [inst], post, put s₃ (locationOf ctx f p inst.dest) v⟩ :=
    .call target hitems hargs hreturned hexec
  refine ⟨_, hexec, h.next hf hcontrol hflow (fun w hw => ?_) ?_ rfl (fun i hi => ?_) ?_⟩
  · by_cases heq : w = inst.dest
    · rw [heq, setReg_regs_same]
      exact contents_put_same husable
    · rcases live_before h.get hflow hw with hdefw | hlive
      · rw [hdef] at hdefw
        exact absurd (Option.some.inj hdefw).symm heq
      · obtain ⟨hlt, hnew, hval⟩ := h.keeps hf hlive
        have hlocNe : locationOf ctx f p w ≠ locationOf ctx f p inst.dest := fun hsame =>
          heq (locationOf_inj hf hlt hdest hnew hsame)
        -- only the last virtual register may be below `rsp`, and it is not live here
        have hlast : w ≠ f.lastVreg := by
          rintro rfl
          obtain ⟨visited, hpath⟩ := h.reached
          exact heq (hf.wellFormed.last_behind_call (hpath.step hflow) h.get hop hw).symm
        have hkept : (locationOf ctx f p w).Kept (room + 2 ^ 32) s :=
          locationOf_kept hf h.balanced.depth hlt hlast hnew (Nat.le_add_left (2 ^ 32) room)
        rw [contents_put_other husable (locationOf_usable hnew) hlocNe,
          hkept.same hpreserved₃ habove₃, hval, setReg_regs_of_ne _ _ _ heq]
  · rw [pendingAt_append, pendingAt_cons, pendingAt_nil]
    unfold pendingAfter
    rw [hop]
  · have hkept := slot_kept hf h.balanced.depth (i := i) (by omega)
      (Nat.le_add_left (2 ^ 32) room)
    rw [contents_put_other husable (local_usable i) (locationOf_ne_local hf hdest hi).symm,
      hkept.same hpreserved₃ habove₃]
    exact h.slots i hi
  · have hput := sameBytes_put (room + 48) (s := s₃) (v := v)
      (locationOf_wellPlaced hf hdest hne) (by omega) (by omega)
    rw [hrbp₃] at hput
    refine SameBytes.trans (habove₃.mono ?_) (hput.mono (by bv_omega))
    rw [hdepth, h.balanced.guard.rbp, hsaved]
    generalize calculateAlignedStackSize f = size at hsize
    clear hdepth hrsp₂ hready
    bv_omega

/-! ## Returns -/

/-- A return but its last instruction leaves what the caller expects. -/
theorem Matches.returns {s₀ : State} (h : Matches room ctx f p S rs ⟨pre, inst :: post, s⟩)
    (hop : inst.opcode = .ret) (hentered : Entered (calculateAlignedStackSize f) s₀ S)
    (habove : SameBytes (s₀.regs .rsp) room s₀.mem S.mem) :
    ∃ s', execCode (loadCode .rax (locationsAt ctx f p pre inst inst.src1) ++ restoreCode) s =
        some s' ∧
      read64 s'.mem (s'.regs .rsp) = read64 s₀.mem (s₀.regs .rsp) ∧
      Served room (rs.regs inst.src1) s₀ (s'.setReg .rsp (s'.regs .rsp + 8)) := by
  obtain ⟨hrbp, hwords, -⟩ := hentered
  have huses : inst.src1 ∈ inst.uses := by simp [IRInstruction.uses, hop]
  have htouched : inst.src1 ∈ touched (pendingAt [] pre) inst :=
    uses_touched (by simp [hop]) huses
  obtain ⟨hloc, hne⟩ := h.located htouched
  have hload := exec_loadCode (s := s) .rax (locationOf_usable hne)
  rw [h.used huses, ← hloc] at hload
  generalize hs₁ : s.setReg .rax (rs.regs inst.src1) = s₁ at hload
  have hmem₁ : s₁.mem = s.mem := by
    rw [← hs₁, State.setReg_mem]
  have hguard : Guarded s s₁ := by
    refine guarded_of_mem ?_ hmem₁
    rw [← hs₁, State.setReg_of_ne _ _ (by decide)]
  have hwhole := h.balanced.guard.trans hguard
  obtain ⟨s', hrestore, hrestored⟩ := exec_restoreCode (hwhole.rbp.trans hrbp)
    (hwhole.words.trans hwords)
  have hrax : s'.regs .rax = s₁.regs .rax := execCode_regs (by decide) hrestore
  have hmem' : s'.mem = s₁.mem := execCode_mem (by decide) hrestore
  refine ⟨s', execCode_seq hload hrestore, hrestored.address, ?_, ?_, fun r hr => ?_, ?_⟩
  · rw [State.setReg_same, hrestored.rsp]
  · rw [State.setReg_of_ne _ _ (by decide), hrax, ← hs₁, State.setReg_same]
  · have hsp : r ≠ .rsp := by
      rintro rfl
      exact absurd hr (by decide)
    rw [State.setReg_of_ne _ _ hsp, hrestored.regs r hr]
  · have hbody := h.above
    rw [hrbp, show s₀.regs .rsp - 8 + 8 = s₀.regs .rsp from BitVec.sub_add_cancel _ _] at hbody
    rw [State.setReg_mem, hmem', hmem₁]
    exact habove.trans hbody

end

end TinyCompile.Jit
