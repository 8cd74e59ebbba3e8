import TinyCompile.Jit.Placed

set_option autoImplicit false

/-!
# Jit: the code of a function computes what its instructions do

Entered by the calling convention, the linked code of a function returns what a run of its
instructions returns, if the functions it calls keep the convention themselves.
-/

namespace TinyCompile.Jit

open TinyCompile.Machine TinyCompile.X86 TinyCompile.Source TinyCompile.Logic TinyCompile.Ir

/-- Code that is entered with `args` by the calling convention comes back to its return
address with `v`, and leaves the registers and the memory of its callers alone. -/
def Serves (code : Mem) (room : Nat) (entry : Word) (args : List Word) (v : Word) : Prop :=
  ∀ s, Entry args s → ∃ s',
    Steps code ⟨entry, s⟩ ⟨read64 s.mem (s.regs .rsp), s'⟩ ∧ Served room v s s'

/-- Whatever the oracle answers, the code of the function of that name returns. -/
def Answers (code : Mem) (room : Nat) (target : StringView → Word) (oracle : Oracle) : Prop :=
  ∀ name args v, oracle ⟨name, args⟩ = some v → Serves code room (target name) args v

/-- The linked code of a function in code memory. -/
structure Linked (code : Mem) (base : Ptr) (target : StringView → Word) (ctx : JITContext)
    (p : Nat) (f : IRFunction) : Prop where
  runnable : Runnable p f
  small : functionSize ctx f p < 2 ^ 28
  placed : Placed code base target (functionItems ctx f p)

theorem Linked.labels {code : Mem} {base : Ptr} {target : StringView → Word} {ctx : JITContext}
    {p : Nat} {f : IRFunction} (h : Linked code base target ctx p f) :
    LabelsFit 0 f.labelCount f.instructions := h.runnable.wellFormed.labels

section

variable {code : Mem} {base : Ptr} {target : StringView → Word} {ctx : JITContext} {p : Nat}
  {f : IRFunction} {room room' : Nat} {oracle : Oracle} {S s s₀ : State} {rs rs' : RunState}
  {pre post : List IRInstruction} {inst : IRInstruction}

/-! ## Calls -/

/-- A call whose function keeps the convention. -/
theorem Matches.calls (hlinked : Linked code base target ctx p f)
    (h : Matches room ctx f p S rs ⟨pre, inst :: post, s⟩) (hop : inst.opcode = .call)
    (hanswers : Answers code room' target oracle) (hroom : room + 2 ^ 33 ≤ room')
    (hroom' : room' < 2 ^ 63) (haligned : (S.regs .rbp).toNat % 16 = 0)
    (hexec : execInst oracle inst rs = some rs') : ∃ s',
      Steps code ⟨placeOf base ctx f p pre, s⟩ ⟨placeOf base ctx f p (pre ++ [inst]), s'⟩ ∧
        Matches room ctx f p S rs' ⟨pre ++ [inst], post, s'⟩ := by
  have hf := hlinked.runnable
  unfold execInst at hexec
  rw [hop] at hexec
  obtain ⟨v, hv, heq⟩ := Option.bind_eq_some_iff.mp hexec
  obtain rfl := Option.some.inj heq
  obtain ⟨before, after, hitems, hstart, hend⟩ := items_split ctx p h.split
  have hitemsAt : itemsAt ctx f p pre inst =
      (argumentCode (locationsAt ctx f p pre inst) (pendingAt [] pre)).map .code ++
        .callSite inst.funcName :: (callRax :: cleanupCode (pendingAt [] pre)
          (locationsAt ctx f p pre inst inst.dest)).map .code := by
    simp only [itemsAt, itemsOf, hop]
  obtain ⟨m, -, -, hpending⟩ := callDepth_bounds hf.stack hf.vregs hf.encodable h.split
  have hargs : rs.args.length ≤ 32 := by
    rw [h.args, List.length_map]
    exact hpending
  -- up to the callee
  obtain ⟨s₁, harguments, hready, hcallAligned⟩ := h.ready hf hop (by omega) haligned
  generalize hfront : argumentCode (locationsAt ctx f p pre inst) (pendingAt [] pre) = front
    at harguments hitemsAt
  generalize hback : cleanupCode (pendingAt [] pre) (locationsAt ctx f p pre inst inst.dest) = back
    at hitemsAt
  have hsplit₁ : functionItems ctx f p = before ++ front.map .code ++
      (.callSite inst.funcName :: .code callRax :: (back.map .code ++ after)) := by
    rw [hitems, hitemsAt]
    simp
  have hsteps₁ := hlinked.placed.steps hsplit₁ (itemsAt_fits hf h.split fun e he => by
    rw [hitemsAt]
    exact List.mem_append_left _ (List.mem_map_of_mem he)) harguments
  have hsteps₂ := hlinked.placed.call (s := s₁) hsplit₁
  -- the callee
  generalize hnext : at' base (itemsSize (before ++ front.map .code ++
    [.callSite inst.funcName, .code callRax])) = next at hsteps₂
  have hentry := hready.entry (by omega) hcallAligned (target inst.funcName) next
  obtain ⟨s₂, hsteps₃, hserved⟩ := hanswers _ _ v hv _ hentry
  rw [callEntry_returns] at hsteps₃
  -- behind the callee
  rw [← hfront] at harguments
  obtain ⟨s', hcleanup, hmatch⟩ := h.behind
    (rs.calls ++ [⟨inst.funcName, rs.args⟩]) hf hop hready harguments hserved hroom hroom'
  rw [hback] at hcleanup
  have hsplit₂ : functionItems ctx f p = (before ++ front.map .code ++
      [.callSite inst.funcName, .code callRax]) ++ back.map .code ++ after := by
    rw [hitems, hitemsAt]
    simp
  have hsteps₄ := hlinked.placed.steps hsplit₂ (itemsAt_fits hf h.split fun e he => by
    rw [hitemsAt]
    refine List.mem_append_right _ (List.mem_cons_of_mem _ ?_)
    exact List.mem_map_of_mem (List.mem_cons_of_mem _ he)) hcleanup
  refine ⟨s', ?_, hmatch⟩
  have hwhole : before ++ front.map .code ++ [.callSite inst.funcName, .code callRax] ++
      back.map .code = before ++ itemsAt ctx f p pre inst := by
    rw [hitemsAt]
    simp
  rw [hnext, hwhole, hend] at hsteps₄
  unfold placeOf
  rw [← hstart]
  exact ((hsteps₁.trans hsteps₂).trans hsteps₃).trans hsteps₄

/-! ## The run of a function -/

/-- The configuration of the interpreter and the machine match at a place of the function. -/
def Follows (room : Nat) (base : Ptr) (ctx : JITContext) (f : IRFunction) (p : Nat) (S : State)
    (c : Config) (m : X86.Machine) : Prop :=
  ∃ pre post, pre.length = c.1 ∧ m.rip = placeOf base ctx f p pre ∧
    Matches room ctx f p S c.2 ⟨pre, post, m.state⟩

theorem Follows.here {c : Config} {m : X86.Machine} (h : Follows room base ctx f p S c m)
    {t : Turn Config (Word × RunState)} (hturn : runStep oracle f.instructions c = some t) :
    ∃ pre inst post, pre.length = c.1 ∧ m = ⟨placeOf base ctx f p pre, m.state⟩ ∧
      Matches room ctx f p S c.2 ⟨pre, inst :: post, m.state⟩ ∧
      stepInst oracle f.instructions inst pre.length c.2 = some t := by
  obtain ⟨pre, post, hlen, hrip, hmatch⟩ := h
  obtain ⟨inst, hget, hstep⟩ := Option.bind_eq_some_iff.mp hturn
  have hsplit : f.instructions = pre ++ post := hmatch.balanced.split
  have hhead : post[0]? = some inst := by
    rw [hsplit, ← hlen, List.getElem?_append_right (Nat.le_refl _), Nat.sub_self] at hget
    exact hget
  cases post with
  | nil => cases hhead
  | cons first post =>
    obtain rfl : first = inst := Option.some.inj hhead
    refine ⟨pre, first, post, hlen, ?_, hmatch, hlen ▸ hstep⟩
    cases m
    exact congrArg (X86.Machine.mk · _) hrip

/-- The machine follows a turn of the interpreter. -/
theorem Follows.again {c c' : Config} {m : X86.Machine} (hlinked : Linked code base target ctx p f)
    (hanswers : Answers code room' target oracle) (hroom : room + 2 ^ 33 ≤ room')
    (hroom' : room' < 2 ^ 62) (haligned : (S.regs .rbp).toNat % 16 = 0)
    (h : Follows room base ctx f p S c m)
    (hturn : runStep oracle f.instructions c = some (.again c')) :
    ∃ m', Steps code m m' ∧ Follows room base ctx f p S c' m' := by
  obtain ⟨pre, inst, post, -, hm, hmatch, hstep⟩ := h.here hturn
  rw [hm]
  by_cases hop : inst.opcode = .call
  · unfold stepInst at hstep
    rw [hop] at hstep
    obtain ⟨rs', hexec, heq⟩ := Option.map_eq_some_iff.mp hstep
    cases heq
    obtain ⟨s', hsteps, hmatch'⟩ :=
      hmatch.calls hlinked hop hanswers hroom (by omega) haligned hexec
    exact ⟨_, hsteps, pre ++ [inst], post, by simp, rfl, hmatch'⟩
  · obtain ⟨pt, hflow, hlen, hmatch'⟩ := hmatch.turn hlinked.runnable (by omega) hop hstep
    have hsteps := hlinked.placed.flow hlinked.runnable hlinked.labels hlinked.small hmatch.split
      hop hflow
    exact ⟨_, hsteps, pt.before, pt.after, hlen, rfl, hmatch'⟩

/-- The machine is back at the return address of the state it was entered in. -/
def Returns (room : Nat) (s₀ : State) (w : Word × RunState) (m : X86.Machine) : Prop :=
  m.rip = read64 s₀.mem (s₀.regs .rsp) ∧ Served room w.1 s₀ m.state

/-- The machine returns where the interpreter does. -/
theorem Follows.leave {c : Config} {m : X86.Machine} {w : Word × RunState}
    (hlinked : Linked code base target ctx p f)
    (hentered : Entered (calculateAlignedStackSize f) s₀ S)
    (habove : SameBytes (s₀.regs .rsp) room s₀.mem S.mem) (h : Follows room base ctx f p S c m)
    (hturn : runStep oracle f.instructions c = some (.leave w)) :
    ∃ m', Steps code m m' ∧ Returns room s₀ w m' := by
  obtain ⟨pre, inst, post, -, hm, hmatch, hstep⟩ := h.here hturn
  have hop : inst.opcode = .ret := by
    have hjump : ∀ l, jumpTo f.instructions l c.2 ≠ some (.leave w) := by
      intro l heq
      obtain ⟨i, -, hi⟩ := Option.map_eq_some_iff.mp heq
      cases hi
    unfold stepInst at hstep
    split at hstep
    · assumption
    · exact absurd hstep (hjump _)
    · split at hstep
      · exact absurd hstep (hjump _)
      · cases hstep
    · split at hstep
      · cases hstep
      · exact absurd hstep (hjump _)
    · obtain ⟨rs', -, heq⟩ := Option.map_eq_some_iff.mp hstep
      cases heq
  obtain rfl : w = (c.2.regs inst.src1, c.2) := by
    unfold stepInst at hstep
    rw [hop] at hstep
    cases hstep
    rfl
  obtain ⟨s', hexec, hreturn, hserved⟩ := hmatch.returns hop hentered habove
  obtain ⟨before, after, hitems, hstart, -⟩ := items_split ctx p hmatch.split
  have hitemsAt : itemsAt ctx f p pre inst =
      ((loadCode .rax (locationsAt ctx f p pre inst inst.src1) ++ restoreCode) ++
        [ret]).map .code := by
    simp only [itemsAt, itemsOf, straightCode, hop, epilogueCode_eq, List.append_assoc]
  have hfits : Fits (loadCode .rax (locationsAt ctx f p pre inst inst.src1) ++ restoreCode) :=
    itemsAt_fits hlinked.runnable hmatch.split fun e he => by
      rw [hitemsAt]
      exact List.mem_map_of_mem (List.mem_append_left _ he)
  rw [hitemsAt] at hitems
  have hsteps := hlinked.placed.returns hitems hfits hexec
  rw [hstart] at hsteps
  rw [hm]
  exact ⟨_, hsteps, hreturn, hserved⟩

/-- The state in which the interpreter starts: the arguments are in the first registers, and
the slots hold what is in the memory of the frame. -/
structure Starts (args : List Word) (f : IRFunction) (s₀ : State) (rs : RunState) : Prop where
  regs : ∀ k (hk : k < args.length), rs.regs (k + 1) = args[k]
  slots : ∀ i < f.stackCount, rs.slots i = read64 s₀.mem (entrySlot s₀ i)
  args : rs.args = []

/-- The prologue leads to where the states match. -/
theorem Linked.enter {args : List Word} (h : Linked code base target ctx args.length f)
    (hroom : room < 2 ^ 62) (hentry : Entry args s₀) (hstart : Starts args f s₀ rs) :
    ∃ S, Entered (calculateAlignedStackSize f) s₀ S ∧
      SameBytes (s₀.regs .rsp) room s₀.mem S.mem ∧ (S.regs .rbp).toNat % 16 = 0 ∧
      Steps code ⟨base, s₀⟩ ⟨placeOf base ctx f args.length [], S⟩ ∧
      Matches room ctx f args.length S rs ⟨[], f.instructions, S⟩ := by
  have hf := h.runnable
  have hparams := hf.params_lt
  have hvregs := hf.vregs
  have hmax : maxIrInstructionsPerFunction = 65536 := rfl
  have hmax' : maxVregsPerFunction = 65536 := rfl
  obtain ⟨S, hexec, hentered⟩ := prologue_entered ctx hf.stack hvregs (p := args.length)
    (by omega) s₀
  have hplaced := prologue_placed ctx hf.stack hvregs (by omega) hroom hentry hexec
  have haligned := hentry.aligned
  refine ⟨S, hentered, hplaced.above, ?_, ?_, ⟨rfl, hentered.depth, .refl S⟩, ⟨[], .entry⟩,
    fun v hv => ?_, fun v hv => ?_, hstart.args, fun i hi => ?_, .refl _ _ _⟩
  · rw [hentered.rbp]
    bv_omega
  · have hitems : functionItems ctx f args.length = [] ++
        (prologueOf ctx f args.length).map .code ++
        (ctx.entered f args.length).planItems f.instructions := rfl
    have hfits : Fits (prologueOf ctx f args.length) := (prologueCode_short _ _ _).fits
    have hsteps := h.placed.steps hitems hfits hexec
    have hzero : at' base (itemsSize []) = base := BitVec.add_zero base
    rw [hzero, List.nil_append, itemsSize_code] at hsteps
    exact hsteps
  · have hrange := hf.wellFormed.live_range hv
    have hle := hv.entry hf.wellFormed.piece.before
    obtain ⟨k, rfl⟩ : ∃ k, v = k + 1 := ⟨v - 1, by omega⟩
    rw [← (locationOf_param ⟨hrange.1, hle⟩).1, hplaced.params k (by omega),
      hstart.regs k (by omega)]
  · cases hv
  · rw [hplaced.slots i hi, hstart.slots i hi]

/-- The linked code of a function computes what a run of its instructions does. -/
theorem Linked.results {args : List Word} {v : Word} {w : RunState}
    (h : Linked code base target ctx args.length f) (hanswers : Answers code room' target oracle)
    (hroom : room + 2 ^ 33 ≤ room') (hroom' : room' < 2 ^ 62) (hentry : Entry args s₀)
    (hstart : Starts args f s₀ rs) (hrun : Results (runStep oracle f.instructions) (0, rs) (v, w)) :
    ∃ s', Steps code ⟨base, s₀⟩ ⟨read64 s₀.mem (s₀.regs .rsp), s'⟩ ∧ Served room v s₀ s' := by
  have hroom₁ : room < 2 ^ 62 := by omega
  obtain ⟨S, hentered, habove, haligned, hsteps, hmatch⟩ := h.enter hroom₁ hentry hstart
  have hfollows : Follows room base ctx f args.length S (0, rs)
      ⟨placeOf base ctx f args.length [], S⟩ := ⟨[], f.instructions, rfl, rfl, hmatch⟩
  have htrans : ∀ a b c, Steps code a b → Steps code b c → Steps code a c :=
    fun _ _ _ hab hbc => hab.trans hbc
  obtain ⟨⟨rip, s'⟩, hmore, rfl, hserved⟩ := Results.simulate htrans
    (fun _ _ _ hturn hc => hc.again h hanswers hroom hroom' haligned hturn)
    (fun _ _ _ hturn hc => hc.leave h hentered habove hturn) hrun hfollows
  exact ⟨s', hsteps.trans hmore, hserved⟩

/-! ## Any number of arguments -/

/-- The words in the places of the parameters, whatever the number of arguments is. -/
def received (s : State) (p : Nat) : List Word := (List.range p).map (argWord s)

theorem received_length (s : State) (p : Nat) : (received s p).length = p := by
  unfold received
  rw [List.length_map, List.length_range]

theorem received_get (s : State) {p k : Nat} (hk : k < (received s p).length) :
    (received s p)[k] = argWord s k := by
  simp only [received, List.getElem_map, List.getElem_range]

/-- What the parameters receive is in the places of the convention. -/
theorem entry_received (haligned : (s.regs .rsp).toNat % 16 = 8) (p : Nat) :
    Entry (received s p) s := by
  have hregsLen : argRegisters.length = 10 := rfl
  have hlen := received_length s p
  have htake : ((received s p).take 6).length = min 6 p := by
    rw [List.length_take, hlen]
  refine ⟨List.ext_getElem ?_ fun k h₁ h₂ => ?_, List.ext_getElem ?_ fun k h₁ h₂ => ?_, haligned⟩
  · rw [List.length_map, List.length_take, htake]
    omega
  · rw [List.getElem_map, List.getElem_take, List.getElem_take, received_get, argWord,
      if_pos (by omega), getElem_argRegisters (by omega)]
  · rw [wordsAt_length, List.length_drop]
  · rw [getElem_wordsAt, List.getElem_drop, received_get, argWord, if_neg (by omega)]
    congr 4
    omega

/-- The linked code of a function keeps the calling convention, and returns what its
instructions return. -/
theorem Linked.serves {args : List Word} {v : Word} (h : Linked code base target ctx p f)
    (hanswers : Answers code room' target oracle) (hroom : room + 2 ^ 33 ≤ room')
    (hroom' : room' < 2 ^ 62) (hruns : ReturnsOn oracle f.instructions args v) :
    Serves code room base args v := by
  intro s₀ hentry
  let rs : RunState :=
    ⟨fun r => argWord s₀ (r - 1), fun i => read64 s₀.mem (entrySlot s₀ i), [], []⟩
  obtain ⟨w, hrun⟩ := hruns rs ⟨fun k hk => hentry.word hk, rfl⟩
  have hlen := received_length s₀ p
  have hlinked : Linked code base target ctx (received s₀ p).length f := hlen.symm ▸ h
  have hstart : Starts (received s₀ p) f s₀ rs :=
    ⟨fun k hk => (received_get s₀ hk).symm, fun _ _ => rfl, rfl⟩
  exact hlinked.results hanswers hroom hroom' (entry_received hentry.aligned p) hstart hrun

end

end TinyCompile.Jit
