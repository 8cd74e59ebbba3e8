import TinyCompile.Jit.Places

set_option autoImplicit false

/-!
# Jit: the code of a function follows its instructions

The state of the interpreter and that of the machine match at a place of a function if the
live registers are in their locations and the slots in the frame.  The code of every
instruction keeps this, whatever the locations are.
-/

namespace TinyCompile.Jit

open TinyCompile.Machine TinyCompile.X86 TinyCompile.Source TinyCompile.Logic TinyCompile.Ir

/-- The state of the interpreter in front of the instructions behind a place matches the
machine state there; `S` is the state behind the prologue. -/
structure Matches (room : Nat) (ctx : JITContext) (f : IRFunction) (p : Nat) (S : State)
    (rs : RunState) (pt : Point) : Prop where
  balanced : Balanced f S pt
  reached : ∃ visited, ControlPath f.instructions visited pt.before.length
  live : ∀ v, Live f.instructions v pt.before.length →
    contents pt.state (locationOf ctx f p v) = rs.regs v
  pending : ∀ v ∈ pendingAt [] pt.before, contents pt.state (locationOf ctx f p v) = rs.regs v
  args : rs.args = (pendingAt [] pt.before).map rs.regs
  slots : ∀ i < f.stackCount, contents pt.state (.stack (getLocalOffset i)) = rs.slots i
  above : SameBytes (S.regs .rbp + 8) room S.mem pt.state.mem

theorem local_usable (i : Nat) : (Location.stack (getLocalOffset i)).Usable :=
  getLocalOffset_aligned i

/-! ## Instructions that fall through -/

/-- Neither a jump, nor a label, a call or a return. -/
def IRInstruction.Plain (inst : IRInstruction) : Prop :=
  inst.target = none ∧ inst.labelDef = none ∧ inst.opcode ≠ .call ∧ inst.opcode ≠ .ret

theorem itemsOf_plainCode {inst : IRInstruction} (h : IRInstruction.Plain inst)
    (loc : Nat → Location) (pending : List Nat) :
    itemsOf loc pending inst = (straightCode loc inst).map .code := by
  obtain ⟨htarget, hlabel, hcall, -⟩ := h
  unfold IRInstruction.target at htarget
  unfold IRInstruction.labelDef at hlabel
  unfold itemsOf
  cases hop : inst.opcode <;> rw [hop] at htarget hlabel hcall <;> simp_all [straightCode]

section

variable {room : Nat} {ctx : JITContext} {f : IRFunction} {p : Nat} {S s s' : State}
  {rs rs' : RunState} {pre post : List IRInstruction} {inst : IRInstruction}

theorem Matches.split (h : Matches room ctx f p S rs ⟨pre, inst :: post, s⟩) :
    f.instructions = pre ++ inst :: post := h.balanced.split

theorem Matches.get (h : Matches room ctx f p S rs ⟨pre, inst :: post, s⟩) :
    f.instructions[pre.length]? = some inst := by
  rw [h.split]
  simp

/-- The encoder of the instruction finds its virtual registers in their locations. -/
theorem Matches.located (h : Matches room ctx f p S rs ⟨pre, inst :: post, s⟩) {v : Nat}
    (hv : v ∈ touched (pendingAt [] pre) inst) :
    locationsAt ctx f p pre inst v = locationOf ctx f p v ∧ locationOf ctx f p v ≠ .none :=
  locationsAt_eq h.split hv

theorem Matches.used (h : Matches room ctx f p S rs ⟨pre, inst :: post, s⟩)
    {v : Nat} (hv : v ∈ inst.uses) :
    contents s (locationOf ctx f p v) = rs.regs v := h.live v (.read h.get hv)

theorem Matches.pending_nil (hf : Runnable p f)
    (h : Matches room ctx f p S rs ⟨pre, inst :: post, s⟩) (harg : inst.opcode ≠ .arg)
    (hcall : inst.opcode ≠ .call) : pendingAt [] pre = [] := by
  have hscan : argScan 0 (pre ++ inst :: post) = some 0 := by
    rw [← h.split]
    exact hf.wellFormed.piece.args
  exact pendingAt_eq_nil hscan harg hcall

theorem pendingAt_snoc_nil (hpending : pendingAt [] pre = []) (harg : inst.opcode ≠ .arg) :
    pendingAt [] (pre ++ [inst]) = [] := by
  rw [pendingAt_append, hpending, pendingAt_cons, pendingAt_nil]
  unfold pendingAfter
  split
  · exact absurd ‹_› harg
  · rfl
  · rfl

/-- A live register behind an instruction is what the instruction wrote, or was live. -/
theorem live_before {v : Nat} (hget : f.instructions[pre.length]? = some inst)
    (hflow : Flows f.instructions pre.length (pre.length + 1))
    (hv : Live f.instructions v (pre.length + 1)) :
    inst.defines = some v ∨ Live f.instructions v pre.length := by
  by_cases hdef : inst.defines = some v
  · exact .inl hdef
  · exact .inr (.pass hget hflow hdef hv)

/-- The place behind an instruction, where no argument is pending. -/
theorem Matches.next (hf : Runnable p f) (h : Matches room ctx f p S rs ⟨pre, inst :: post, s⟩)
    (hcontrol : Flow ctx f p ⟨pre, inst :: post, s⟩ ⟨pre ++ [inst], post, s'⟩)
    (hflow : Flows f.instructions pre.length (pre.length + 1))
    (hlive : ∀ v, Live f.instructions v (pre.length + 1) →
      contents s' (locationOf ctx f p v) = rs'.regs v)
    (hpending : pendingAt [] (pre ++ [inst]) = []) (hargs : rs'.args = [])
    (hslots : ∀ i < f.stackCount, contents s' (.stack (getLocalOffset i)) = rs'.slots i)
    (habove : SameBytes (S.regs .rbp + 8) room s.mem s'.mem) :
    Matches room ctx f p S rs' ⟨pre ++ [inst], post, s'⟩ where
  balanced := h.balanced.step hf.stack hf.vregs hf.encodable hf.locals hcontrol
  reached := by
    obtain ⟨visited, hpath⟩ := h.reached
    refine ⟨visited ++ [pre.length], ?_⟩
    rw [List.length_append]
    exact hpath.step hflow
  live := by
    intro v hv
    rw [List.length_append] at hv
    exact hlive v hv
  pending := by
    intro v hv
    rw [hpending] at hv
    cases hv
  args := by
    rw [hpending, hargs]
    rfl
  slots := hslots
  above := h.above.trans habove

theorem Matches.noArgs (hf : Runnable p f) (h : Matches room ctx f p S rs ⟨pre, inst :: post, s⟩)
    (harg : inst.opcode ≠ .arg) (hcall : inst.opcode ≠ .call) : rs.args = [] := by
  rw [h.args, h.pending_nil hf harg hcall]
  rfl

/-- What a live register has behind an instruction that writes another one. -/
theorem Matches.keeps (hf : Runnable p f) (h : Matches room ctx f p S rs ⟨pre, inst :: post, s⟩)
    {v : Nat} (hlive : Live f.instructions v pre.length) :
    v < f.vregCount ∧ locationOf ctx f p v ≠ .none ∧
      contents s (locationOf ctx f p v) = rs.regs v := by
  obtain ⟨reader, hreader, huse⟩ := hlive.used
  exact ⟨(hf.wellFormed.live_range hlive).2, locationOf_used hf.wellFormed hreader huse,
    h.live v hlive⟩

/-- The code of an instruction with a destination. -/
theorem Matches.writes (hf : Runnable p f) (hroom : room < 2 ^ 62)
    (h : Matches room ctx f p S rs ⟨pre, inst :: post, s⟩) (hplain : IRInstruction.Plain inst)
    (hdef : inst.defines = some inst.dest) {v : Word}
    (hcode : Computes (straightCode (locationsAt ctx f p pre inst) inst) s
      (locationOf ctx f p inst.dest) v) :
    ∃ s', Flow ctx f p ⟨pre, inst :: post, s⟩ ⟨pre ++ [inst], post, s'⟩ ∧
      Matches room ctx f p S (rs.setReg inst.dest v) ⟨pre ++ [inst], post, s'⟩ := by
  obtain ⟨s₁, hexec, hscratch⟩ := hcode
  obtain ⟨htarget, -, hcall, hret⟩ := id hplain
  have harg : inst.opcode ≠ .arg := by
    rintro hop
    simp [IRInstruction.defines, hop] at hdef
  have hflow := flows_next h.get htarget hret
  have hargs := h.noArgs hf harg hcall
  have hmem : inst ∈ f.instructions := List.mem_of_getElem? h.get
  have hrange := hf.wellFormed.piece.defines inst hmem _ hdef
  have hparams := hf.params_lt
  have hdest : inst.dest < f.vregCount := by omega
  have hne : locationOf ctx f p inst.dest ≠ .none := locationOf_defined hmem hdef
  have husable := locationOf_usable hne
  have hcontrol : Flow ctx f p ⟨pre, inst :: post, s⟩ ⟨pre ++ [inst], post, _⟩ :=
    .straight (itemsOf_plainCode hplain _ _) hexec
  refine ⟨_, hcontrol, h.next hf hcontrol hflow (fun w hw => ?_)
    (pendingAt_snoc_nil (h.pending_nil hf harg hcall) harg) hargs (fun i hi => ?_) ?_⟩
  · by_cases heq : w = inst.dest
    · rw [heq, setReg_regs_same]
      exact contents_put_same husable
    · rcases live_before h.get hflow hw with hdefw | hlive
      · rw [hdef] at hdefw
        exact absurd (Option.some.inj hdefw).symm heq
      · obtain ⟨hlt, hnew, hval⟩ := h.keeps hf hlive
        have hlocNe : locationOf ctx f p w ≠ locationOf ctx f p inst.dest := fun hloc =>
          heq (locationOf_inj hf hlt hdest hnew hloc)
        rw [contents_put_other husable (locationOf_usable hnew) hlocNe,
          hscratch.contents (locationOf_usable hnew), setReg_regs_of_ne _ _ _ heq, hval]
  · have hslot := local_usable i
    rw [contents_put_other husable hslot (locationOf_ne_local hf hdest hi).symm,
      hscratch.contents hslot]
    exact h.slots i hi
  · have hput := sameBytes_put (room + 48) (s := s₁) (v := v)
      (locationOf_wellPlaced hf hdest hne) (by omega) (by omega)
    rw [hscratch.rbp, hscratch.mem, h.balanced.guard.rbp] at hput
    refine hput.mono ?_
    bv_omega

/-- A store. -/
theorem Matches.stores (hf : Runnable p f) (hroom : room < 2 ^ 62)
    (h : Matches room ctx f p S rs ⟨pre, inst :: post, s⟩) (hop : inst.opcode = .store) :
    ∃ s', Flow ctx f p ⟨pre, inst :: post, s⟩ ⟨pre ++ [inst], post, s'⟩ ∧
      Matches room ctx f p S (rs.setSlot inst.dest
        (storeSlot (typeSize inst.type) (rs.slots inst.dest) (rs.regs inst.src1)))
        ⟨pre ++ [inst], post, s'⟩ := by
  have hplain : IRInstruction.Plain inst := by
    simp [IRInstruction.Plain, IRInstruction.target, IRInstruction.labelDef, hop]
  have huses : inst.src1 ∈ inst.uses := by simp [IRInstruction.uses, hop]
  have hmem : inst ∈ f.instructions := List.mem_of_getElem? h.get
  have hflow := flows_next h.get hplain.1 hplain.2.2.2
  have htouched : inst.src1 ∈ touched (pendingAt [] pre) inst := uses_touched (by simp [hop]) huses
  obtain ⟨hloc, hne⟩ := h.located htouched
  have husable : (locationsAt ctx f p pre inst inst.src1).Usable := hloc ▸ locationOf_usable hne
  obtain ⟨s₁, hexec, hscratch⟩ := store_stores (s := s) hop husable
  rw [hloc, h.live _ (.read h.get huses)] at hexec
  have hslotLt : inst.dest < f.stackCount := (hf.locals inst hmem).2 hop
  have hstack := hf.stack
  have hmax : maxIrInstructionsPerFunction = 65536 := rfl
  have harg : inst.opcode ≠ .arg := by simp [hop]
  have hcall : inst.opcode ≠ .call := by simp [hop]
  have hargs := h.noArgs hf harg hcall
  have hcontrol : Flow ctx f p ⟨pre, inst :: post, s⟩ ⟨pre ++ [inst], post, _⟩ :=
    .straight (itemsOf_plainCode hplain _ _) hexec
  refine ⟨_, hcontrol, h.next hf hcontrol hflow (fun w hw => ?_)
    (pendingAt_snoc_nil (h.pending_nil hf harg hcall) harg) hargs (fun i hi => ?_) ?_⟩
  · rcases live_before h.get hflow hw with hdefw | hlive
    · simp [IRInstruction.defines, hop] at hdefw
    · obtain ⟨hlt, hnew, hval⟩ := h.keeps hf hlive
      rw [contents_storeBytes_other _ (getLocalOffset_aligned _) (locationOf_usable hnew)
        (locationOf_ne_local hf hlt hslotLt), hscratch.contents (locationOf_usable hnew), hval]
      rfl
  · have hslot := local_usable i
    by_cases heq : i = inst.dest
    · subst heq
      rw [contents_storeBytes_same, hscratch.contents hslot, h.slots _ hi, setSlot_slots_same]
    · have hapart := getLocalOffset_disjoint (i := i) (j := inst.dest) (by omega) (by omega) heq
      have hoff : Location.stack (getLocalOffset i) ≠ .stack (getLocalOffset inst.dest) := by
        intro hsame
        rw [Location.stack.inj hsame] at hapart
        unfold SlotsDisjoint at hapart
        omega
      rw [contents_storeBytes_other _ (getLocalOffset_aligned _) hslot hoff,
        hscratch.contents hslot, h.slots i hi, setSlot_slots_of_ne _ _ _ heq]
  · have hbelow : BelowSaved (getLocalOffset inst.dest) := getLocalOffset_below (by omega)
    have hstore := sameBytes_slot (room + 48) (s := s₁) (v := rs.regs inst.src1) hbelow
      (storedBytes_le (typeSize inst.type)) (by omega) (by omega)
    rw [hscratch.rbp, h.balanced.guard.rbp] at hstore
    have habove := hstore.mono (b := S.regs .rbp + 8) (k := room) (by bv_omega)
    rw [← hscratch.mem]
    exact habove

/-- A pending argument: no code, the register is read when the call comes. -/
theorem Matches.collects (hf : Runnable p f)
    (h : Matches room ctx f p S rs ⟨pre, inst :: post, s⟩) (hop : inst.opcode = .arg) :
    Flow ctx f p ⟨pre, inst :: post, s⟩ ⟨pre ++ [inst], post, s⟩ ∧
      Matches room ctx f p S { rs with args := rs.args ++ [rs.regs inst.src1] }
        ⟨pre ++ [inst], post, s⟩ := by
  have hplain : IRInstruction.Plain inst := by
    simp [IRInstruction.Plain, IRInstruction.target, IRInstruction.labelDef, hop]
  have hflow := flows_next h.get hplain.1 hplain.2.2.2
  have hcode : straightCode (locationsAt ctx f p pre inst) inst = [] := by
    unfold straightCode
    rw [hop]
  have hexec : execCode (straightCode (locationsAt ctx f p pre inst) inst) s = some s := by
    rw [hcode]
    rfl
  have hpending : pendingAt [] (pre ++ [inst]) = pendingAt [] pre ++ [inst.src1] := by
    rw [pendingAt_append, pendingAt_cons, pendingAt_nil]
    unfold pendingAfter
    rw [hop]
  have hcontrol : Flow ctx f p ⟨pre, inst :: post, s⟩ ⟨pre ++ [inst], post, s⟩ :=
    .straight (itemsOf_plainCode hplain _ _) hexec
  refine ⟨hcontrol, h.balanced.step hf.stack hf.vregs hf.encodable hf.locals hcontrol, ?_,
    fun v hv => ?_, fun v hv => ?_, ?_, h.slots, h.above⟩
  · obtain ⟨visited, hpath⟩ := h.reached
    refine ⟨visited ++ [pre.length], ?_⟩
    rw [List.length_append]
    exact hpath.step hflow
  · rw [List.length_append] at hv
    rcases live_before h.get hflow hv with hdef | hlive
    · simp [IRInstruction.defines, hop] at hdef
    · exact h.live v hlive
  · rw [hpending] at hv
    rcases List.mem_append.mp hv with hv | hv
    · exact h.pending v hv
    · rw [List.mem_singleton.mp hv]
      exact h.used (by simp [IRInstruction.uses, hop])
  · show rs.args ++ [rs.regs inst.src1] = _
    rw [hpending, List.map_append, h.args]
    rfl

/-! ## Labels and jumps -/

/-- Control goes somewhere else, and the code on the way changes only scratch registers. -/
theorem Matches.goes (hf : Runnable p f) {pre' post' : List IRInstruction}
    (h : Matches room ctx f p S rs ⟨pre, inst :: post, s⟩) (hdef : inst.defines = none)
    (harg : inst.opcode ≠ .arg) (hcall : inst.opcode ≠ .call)
    (hcontrol : Flow ctx f p ⟨pre, inst :: post, s⟩ ⟨pre', post', s'⟩)
    (hflow : Flows f.instructions pre.length pre'.length) (hpending : pendingAt [] pre' = [])
    (hscratch : Scratched s s') : Matches room ctx f p S rs ⟨pre', post', s'⟩ where
  balanced := h.balanced.step hf.stack hf.vregs hf.encodable hf.locals hcontrol
  reached := by
    obtain ⟨visited, hpath⟩ := h.reached
    exact ⟨visited ++ [pre.length], hpath.step hflow⟩
  live := by
    intro v hv
    have hlive : Live f.instructions v pre.length := .pass h.get hflow (by simp [hdef]) hv
    obtain ⟨-, hne, hval⟩ := h.keeps hf hlive
    rw [hscratch.contents (locationOf_usable hne), hval]
  pending := by
    intro v hv
    rw [hpending] at hv
    cases hv
  args := by
    rw [h.noArgs hf harg hcall, hpending]
    rfl
  slots := fun i hi => (hscratch.contents (local_usable i)).trans (h.slots i hi)
  above := by
    show SameBytes _ _ _ s'.mem
    rw [hscratch.mem]
    exact h.above

end

/-- The jump of an instruction is taken. -/
def IRInstruction.Taken (inst : IRInstruction) (rs : RunState) : Prop :=
  ∀ c, jumpCond inst = some c → ((c = .e) ↔ rs.regs inst.src1 = 0)

section

variable {room : Nat} {ctx : JITContext} {f : IRFunction} {p : Nat} {S s s' : State}
  {rs rs' : RunState} {pre post : List IRInstruction} {inst : IRInstruction}

/-- What a jump of the interpreter does. -/
theorem stepInst_jump {oracle : Oracle} {l pc : Nat} {t : Turn Config (Word × RunState)}
    (htarget : inst.target = some l) (h : stepInst oracle f.instructions inst pc rs = some t) :
    (IRInstruction.Taken inst rs ∧ jumpTo f.instructions l rs = some t) ∨
      (¬ IRInstruction.Taken inst rs ∧ (∃ c, jumpCond inst = some c) ∧
        t = .again (pc + 1, rs)) := by
  unfold IRInstruction.target at htarget
  unfold IRInstruction.Taken jumpCond
  unfold stepInst at h
  split at htarget
  · rename_i hop
    cases htarget
    simp only [hop] at h ⊢
    exact .inl ⟨by simp, h⟩
  · rename_i hop
    cases htarget
    simp only [hop] at h ⊢
    split at h
    · rename_i hzero
      exact .inl ⟨by simpa using hzero, h⟩
    · rename_i hne
      exact .inr ⟨by simpa using hne, ⟨.e, rfl⟩, (Option.some.inj h).symm⟩
  · rename_i hop
    cases htarget
    simp only [hop] at h ⊢
    split at h
    · rename_i hzero
      exact .inr ⟨by simpa using hzero, ⟨.ne, rfl⟩, (Option.some.inj h).symm⟩
    · rename_i hne
      exact .inl ⟨by simpa using hne, h⟩
  · cases htarget

/-- The test in front of a jump. -/
theorem Matches.tests {l : Nat} (h : Matches room ctx f p S rs ⟨pre, inst :: post, s⟩)
    (htarget : inst.target = some l) : ∃ es s₁,
    itemsAt ctx f p pre inst = es.map .code ++ [.jump (jumpCond inst) l] ∧
      execCode es s = some s₁ ∧ Scratched s s₁ ∧
      ∀ c, jumpCond inst = some c → ∃ fl, s₁.flags = some fl ∧
        (c.holds fl = true ↔ IRInstruction.Taken inst rs) := by
  have hconditional : inst.opcode = .jz ∨ inst.opcode = .jnz → ∃ s₁ fl,
      execCode (testCode (locationsAt ctx f p pre inst inst.src1)) s = some s₁ ∧
        Scratched s s₁ ∧ s₁.flags = some fl ∧ fl.zf = decide (rs.regs inst.src1 = 0) := by
    intro hop
    have huses : inst.src1 ∈ inst.uses := by
      rcases hop with hop | hop <;> simp [IRInstruction.uses, hop]
    have htouched : inst.src1 ∈ touched (pendingAt [] pre) inst := by
      rcases hop with hop | hop <;> exact uses_touched (by simp [hop]) huses
    obtain ⟨hloc, hne⟩ := h.located htouched
    rw [hloc, ← h.used huses]
    exact exec_testCode (locationOf_usable hne)
  unfold IRInstruction.target at htarget
  split at htarget
  · rename_i hop
    cases htarget
    refine ⟨[], s, by simp [itemsAt, itemsOf, jumpCond, hop], rfl, .refl s, fun c hc => ?_⟩
    simp [jumpCond, hop] at hc
  · rename_i hop
    cases htarget
    obtain ⟨s₁, fl, hexec, hscratch, hflags, hzf⟩ := hconditional (.inl hop)
    refine ⟨_, s₁, by simp [itemsAt, itemsOf, jumpCond, hop], hexec, hscratch, fun c hc => ?_⟩
    obtain rfl : Cond.e = c := by simpa [jumpCond, hop] using hc
    refine ⟨fl, hflags, ?_⟩
    show fl.zf = true ↔ _
    rw [hzf, decide_eq_true_iff]
    simp [IRInstruction.Taken, jumpCond, hop]
  · rename_i hop
    cases htarget
    obtain ⟨s₁, fl, hexec, hscratch, hflags, hzf⟩ := hconditional (.inr hop)
    refine ⟨_, s₁, by simp [itemsAt, itemsOf, jumpCond, hop], hexec, hscratch, fun c hc => ?_⟩
    obtain rfl : Cond.ne = c := by simpa [jumpCond, hop] using hc
    refine ⟨fl, hflags, ?_⟩
    show (!fl.zf) = true ↔ _
    rw [hzf, Bool.not_eq_true', decide_eq_false_iff_not]
    simp [IRInstruction.Taken, jumpCond, hop]
  · cases htarget

/-- A jump, taken or not. -/
theorem Matches.jumps {oracle : Oracle} {l pc : Nat} (hf : Runnable p f)
    (h : Matches room ctx f p S rs ⟨pre, inst :: post, s⟩) (htarget : inst.target = some l)
    (hstep : stepInst oracle f.instructions inst pre.length rs = some (.again (pc, rs'))) :
    ∃ pt, Flow ctx f p ⟨pre, inst :: post, s⟩ pt ∧ pt.before.length = pc ∧
      Matches room ctx f p S rs' pt := by
  have hops : inst.defines = none ∧ inst.opcode ≠ .arg ∧ inst.opcode ≠ .call ∧
      inst.opcode ≠ .ret := by
    unfold IRInstruction.target at htarget
    unfold IRInstruction.defines
    cases hop : inst.opcode <;> rw [hop] at htarget <;> simp_all
  obtain ⟨hdef, harg, hcall, hret⟩ := hops
  obtain ⟨es, s₁, hitems, hexec, hscratch, hcond⟩ := h.tests htarget
  have hpending := h.pending_nil hf harg hcall
  rcases stepInst_jump htarget hstep with ⟨htaken, hjump⟩ | ⟨htaken, ⟨c, hc⟩, hnext⟩
  · obtain ⟨rfl, label, hlabel, hdefines⟩ := jumpTo_inv hjump
    obtain ⟨pre', post', hsplit, rfl⟩ := split_of_getElem? hlabel
    have hflow : Flows f.instructions pre.length pre'.length :=
      .jump h.get htarget hlabel hdefines
    have hcontrol : Flow ctx f p ⟨pre, inst :: post, s⟩ ⟨pre', label :: post', s₁⟩ := by
      refine .jump hitems hexec (fun c hc => ?_) hsplit hdefines
      obtain ⟨fl, hfl, hholds⟩ := hcond c hc
      exact ⟨fl, hfl, hholds.mpr htaken⟩
    have hlabelOp : label.opcode = .label := by
      unfold IRInstruction.labelDef at hdefines
      split at hdefines
      · assumption
      · cases hdefines
    have hscan : argScan 0 (pre' ++ label :: post') = some 0 := by
      rw [← hsplit]
      exact hf.wellFormed.piece.args
    have hpending' := pendingAt_eq_nil hscan (by simp [hlabelOp]) (by simp [hlabelOp])
    exact ⟨_, hcontrol, rfl, h.goes hf hdef harg hcall hcontrol hflow hpending' hscratch⟩
  · obtain ⟨rfl, rfl⟩ : pc = pre.length + 1 ∧ rs' = rs := by
      cases hnext
      exact ⟨rfl, rfl⟩
    obtain ⟨fl, hfl, hholds⟩ := hcond c hc
    rw [hc] at hitems
    have hflow : Flows f.instructions pre.length (pre ++ [inst]).length := by
      rw [List.length_append]
      refine .next h.get (fun hop => ?_) hret
      simp [jumpCond, hop] at hc
    have hcontrol : Flow ctx f p ⟨pre, inst :: post, s⟩ ⟨pre ++ [inst], post, s₁⟩ :=
      .past hitems hexec hfl (by simpa [htaken] using hholds)
    exact ⟨_, hcontrol, by simp, h.goes hf hdef harg hcall hcontrol hflow
      (pendingAt_snoc_nil hpending harg) hscratch⟩

/-- A label. -/
theorem Matches.passes (hf : Runnable p f) (h : Matches room ctx f p S rs ⟨pre, inst :: post, s⟩)
    (hop : inst.opcode = .label) : Flow ctx f p ⟨pre, inst :: post, s⟩ ⟨pre ++ [inst], post, s⟩ ∧
      Matches room ctx f p S rs ⟨pre ++ [inst], post, s⟩ := by
  have harg : inst.opcode ≠ .arg := by simp [hop]
  have hcall : inst.opcode ≠ .call := by simp [hop]
  have hflow : Flows f.instructions pre.length (pre ++ [inst]).length := by
    rw [List.length_append]
    exact .next h.get (by simp [hop]) (by simp [hop])
  have hitems : itemsAt ctx f p pre inst = [.label inst.labelId] := by
    simp only [itemsAt, itemsOf, hop]
  have hcontrol : Flow ctx f p ⟨pre, inst :: post, s⟩ ⟨pre ++ [inst], post, s⟩ := .label hitems
  exact ⟨hcontrol, h.goes hf (by simp [IRInstruction.defines, hop]) harg hcall hcontrol hflow
    (pendingAt_snoc_nil (h.pending_nil hf harg hcall) harg) (.refl s)⟩

/-! ## One turn of the interpreter -/

/-- An operation reads its operands and writes its destination. -/
theorem evalOp_operands {a b v : Word} (hv : evalOp a b inst.opcode = some v) :
    (IRInstruction.Plain inst ∧ inst.opcode ≠ .arg) ∧ inst.defines = some inst.dest ∧
      inst.src1 ∈ inst.uses ∧
      (inst.src2 ∈ inst.uses ∨ ∀ b', evalOp a b' inst.opcode = some v) := by
  unfold IRInstruction.Plain IRInstruction.target IRInstruction.labelDef IRInstruction.defines
    IRInstruction.uses
  cases hop : inst.opcode <;> rw [hop] at hv
  case bnot | neg | not | mov => exact ⟨by simp, rfl, by simp, .inr fun _ => hv⟩
  case add | sub | mul | div | eq | neq | lt | le | gt | ge | lshift | rshift | urshift | band | bor
    | bxor => exact ⟨by simp, rfl, by simp, .inl (by simp)⟩
  all_goals cases hv

/-- An operation. -/
theorem Matches.operates (hf : Runnable p f) (hroom : room < 2 ^ 62) {v : Word}
    (h : Matches room ctx f p S rs ⟨pre, inst :: post, s⟩)
    (hv : evalOp (rs.regs inst.src1) (rs.regs inst.src2) inst.opcode = some v) :
    ∃ s', Flow ctx f p ⟨pre, inst :: post, s⟩ ⟨pre ++ [inst], post, s'⟩ ∧
      Matches room ctx f p S (rs.setReg inst.dest v) ⟨pre ++ [inst], post, s'⟩ := by
  obtain ⟨⟨hplain, harg⟩, hdef, hfirst, hsecond⟩ := evalOp_operands hv
  have hloc : ∀ u ∈ touched (pendingAt [] pre) inst,
      locationsAt ctx f p pre inst u = locationOf ctx f p u ∧
        (locationsAt ctx f p pre inst u).Usable := by
    intro u hu
    obtain ⟨hloc, hne⟩ := h.located hu
    exact ⟨hloc, hloc ▸ locationOf_usable hne⟩
  have hread : ∀ u ∈ inst.uses, contents s (locationsAt ctx f p pre inst u) = rs.regs u := by
    intro u hu
    rw [(hloc u (uses_touched harg hu)).1, h.used hu]
  have hcode : Computes (straightCode (locationsAt ctx f p pre inst) inst) s
      (locationsAt ctx f p pre inst inst.dest) v := by
    refine operation_computes (fun u hu => (hloc u hu).2) ?_
    rw [hread _ hfirst]
    rcases hsecond with hsecond | hany
    · rwa [hread _ hsecond]
    · exact hany _
  rw [(hloc _ (defines_touched hdef)).1] at hcode
  exact h.writes hf hroom hplain hdef hcode

/-- One turn of the interpreter that is not a call is one step of control. -/
theorem Matches.turn {oracle : Oracle} {pc : Nat} (hf : Runnable p f) (hroom : room < 2 ^ 62)
    (h : Matches room ctx f p S rs ⟨pre, inst :: post, s⟩) (hcall : inst.opcode ≠ .call)
    (hstep : stepInst oracle f.instructions inst pre.length rs = some (.again (pc, rs'))) :
    ∃ pt, Flow ctx f p ⟨pre, inst :: post, s⟩ pt ∧ pt.before.length = pc ∧
      Matches room ctx f p S rs' pt := by
  cases htarget : inst.target with
  | some l => exact h.jumps hf htarget hstep
  | none =>
    have hret : inst.opcode ≠ .ret := by
      rintro hop
      simp [stepInst, hop] at hstep
    have hnext := runStep_straight oracle (s := rs) h.get htarget hret
    rw [runStep_eq oracle h.get, hstep] at hnext
    obtain ⟨rs₁, hexec, heq⟩ := Option.map_eq_some_iff.mp hnext.symm
    obtain ⟨rfl, rfl⟩ : pre.length + 1 = pc ∧ rs₁ = rs' := by
      cases heq
      exact ⟨rfl, rfl⟩
    have hlen : (pre ++ [inst]).length = pre.length + 1 := List.length_append
    have hmem : inst ∈ f.instructions := List.mem_of_getElem? h.get
    unfold execInst at hexec
    split at hexec
    · rename_i hop
      cases hexec
      have hdef : inst.defines = some inst.dest := by simp [IRInstruction.defines, hop]
      have hplain : IRInstruction.Plain inst := ⟨htarget, by simp [IRInstruction.labelDef, hop],
        hcall, hret⟩
      obtain ⟨hloc, hne⟩ := h.located (defines_touched hdef)
      have hcode := const_computes (s := s) hop (hloc ▸ locationOf_usable hne)
      rw [hloc] at hcode
      obtain ⟨s', hflow, hmatch⟩ := h.writes hf hroom hplain hdef hcode
      exact ⟨_, hflow, hlen, hmatch⟩
    · rename_i hop
      cases hexec
      have hdef : inst.defines = some inst.dest := by simp [IRInstruction.defines, hop]
      have hplain : IRInstruction.Plain inst := ⟨htarget, by simp [IRInstruction.labelDef, hop],
        hcall, hret⟩
      obtain ⟨hloc, hne⟩ := h.located (defines_touched hdef)
      have hcode := load_computes (s := s) hop (hloc ▸ locationOf_usable hne)
      rw [hloc, h.slots _ ((hf.locals inst hmem).1 hop)] at hcode
      obtain ⟨s', hflow, hmatch⟩ := h.writes hf hroom hplain hdef hcode
      exact ⟨_, hflow, hlen, hmatch⟩
    · cases hexec
      obtain ⟨s', hflow, hmatch⟩ := h.stores hf hroom ‹_›
      exact ⟨_, hflow, hlen, hmatch⟩
    · cases hexec
      obtain ⟨hflow, hmatch⟩ := h.collects hf ‹_›
      exact ⟨_, hflow, hlen, hmatch⟩
    · exact absurd ‹_› hcall
    · cases hexec
      obtain ⟨hflow, hmatch⟩ := h.passes hf ‹_›
      exact ⟨_, hflow, hlen, hmatch⟩
    · cases hexec
    · cases hexec
    · cases hexec
    · cases hexec
    · obtain ⟨v, hv, rfl⟩ := Option.map_eq_some_iff.mp hexec
      obtain ⟨s', hflow, hmatch⟩ := h.operates hf hroom hv
      exact ⟨_, hflow, hlen, hmatch⟩

end

end TinyCompile.Jit
