import TinyCompile.Jit.Stack

set_option autoImplicit false

/-!
# Jit: the prologue

Symbolic execution of the prologue: the words it saves, where it leaves `rbp` and `rsp`,
and which slots are then at or above `rsp`.
-/

namespace TinyCompile.Jit

open TinyCompile.Machine TinyCompile.X86 TinyCompile.Source TinyCompile.Ir

/-! ## Words on the stack -/

/-- The `n` words from `rsp` up. -/
def stackWords (s : State) (n : Nat) : List Word := wordsAt s.mem (s.regs .rsp) n

theorem pushWord_rsp (s : State) (v : Word) :
    (s.pushWord v).regs .rsp = s.regs .rsp - 8 := s.setReg_same .rsp _

theorem pushWord_of_ne (s : State) {r : Reg} (v : Word) (h : r ≠ .rsp) :
    (s.pushWord v).regs r = s.regs r := s.setReg_of_ne _ h

theorem stackWords_push (s : State) (v : Word) {n : Nat} (hn : 8 * (n + 1) ≤ 2 ^ 64) :
    stackWords (s.pushWord v) (n + 1) = v :: stackWords s n := by
  have hback : s.regs .rsp - 8 + 8 = s.regs .rsp := BitVec.sub_add_cancel _ _
  have h := wordsAt_writeLow_cons s.mem (s.regs .rsp - 8) v hn
  rw [hback] at h
  unfold stackWords
  rw [pushWord_rsp]
  exact h

theorem stackWords_setReg (s : State) {r : Reg} (v : Word) (n : Nat) (h : r ≠ .rsp) :
    stackWords (s.setReg r v) n = stackWords s n := by
  unfold stackWords
  rw [State.setReg_of_ne _ _ h.symm]
  rfl

/-- Pushing registers puts their words in front, the last one first. -/
theorem exec_pushes {rs : List Reg} (hrs : Reg.rsp ∉ rs) (n : Nat)
    (hn : 8 * (n + rs.length) ≤ 2 ^ 64) {s s' : State}
    (h : execCode (rs.map push) s = some s') :
    s'.regs .rsp = s.regs .rsp - BitVec.ofNat 64 (8 * rs.length) ∧
      (∀ r, r ≠ .rsp → s'.regs r = s.regs r) ∧
      stackWords s' (n + rs.length) = (rs.map s.regs).reverse ++ stackWords s n := by
  induction rs generalizing s n with
  | nil =>
    obtain rfl := Option.some.inj h
    exact ⟨(BitVec.sub_zero _).symm, fun _ _ => rfl, rfl⟩
  | cons r rs ih =>
    rw [List.length_cons] at hn
    have hrest : execCode (rs.map push) (s.pushWord (s.regs r)) = some s' := h
    have hkept : ∀ x, x ≠ .rsp → (s.pushWord (s.regs r)).regs x = s.regs x :=
      fun x hx => pushWord_of_ne s _ hx
    obtain ⟨hrsp, hregs, hwords⟩ :=
      ih (fun hmem => hrs (List.mem_cons_of_mem _ hmem)) (n + 1) (by omega) hrest
    refine ⟨?_, fun x hx => (hregs x hx).trans (hkept x hx), ?_⟩
    · rw [hrsp, pushWord_rsp, List.length_cons]
      bv_omega
    · have hmap : rs.map (s.pushWord (s.regs r)).regs = rs.map s.regs :=
        List.map_congr_left fun x hx => hkept x fun heq => hrs (by simp [← heq, hx])
      rw [List.length_cons, Nat.add_comm rs.length 1, ← Nat.add_assoc, hwords, hmap,
        stackWords_push _ _ (by omega)]
      simp

/-! ## Saving registers -/

/-- The words of a frame: the saved registers and the return address. -/
def savedWords (s₀ : State) : List Word :=
  [s₀.regs .r15, s₀.regs .r14, s₀.regs .r13, s₀.regs .r12, s₀.regs .rbx, s₀.regs .rbp,
    read64 s₀.mem (s₀.regs .rsp)]

/-- What the prologue of a frame of `size` bytes leaves. -/
structure Entered (size : Nat) (s₀ s : State) : Prop where
  rbp : s.regs .rbp = s₀.regs .rsp - 8
  words : frameWords s = savedWords s₀
  depth : Depth size s

/-- The pushes of the prologue. -/
def saveCode : List Encoded :=
  [push .rbp, movRegReg .rbp .rsp, push .rbx, push .r12, push .r13, push .r14, push .r15]

theorem exec_saveCode {s₀ s : State} (h : execCode saveCode s₀ = some s) : Entered 0 s₀ s := by
  have hsplit : saveCode = [Reg.rbp].map push ++ ([movRegReg .rbp .rsp] ++
    [Reg.rbx, .r12, .r13, .r14, .r15].map push) := rfl
  rw [hsplit, execCode_append] at h
  obtain ⟨s₁, hs₁, h⟩ := Option.bind_eq_some_iff.mp h
  rw [execCode_append] at h
  obtain ⟨s₂, hs₂, h⟩ := Option.bind_eq_some_iff.mp h
  obtain ⟨hrsp₁, hregs₁, hwords₁⟩ := exec_pushes (by decide) 1 (by decide) hs₁
  obtain ⟨hrsp, hregs, hwords⟩ := exec_pushes (by decide) 2 (by decide) h
  rw [execCode_one] at hs₂
  obtain rfl : s₁.setReg .rbp (s₁.regs .rsp) = s₂ := Option.some.inj hs₂
  have hmap : [Reg.rbx, .r12, .r13, .r14, .r15].map (s₁.setReg .rbp (s₁.regs .rsp)).regs =
      [Reg.rbx, .r12, .r13, .r14, .r15].map s₀.regs := by
    apply List.map_congr_left
    intro r hr
    have hne : r ≠ .rsp ∧ r ≠ .rbp := by
      constructor <;> rintro rfl <;> exact absurd hr (by decide)
    rw [State.setReg_of_ne _ _ hne.2, hregs₁ r hne.1]
  have hrbp : s.regs .rbp = s₀.regs .rsp - 8 := by
    rw [hregs .rbp (by decide), State.setReg_same, hrsp₁]
    rfl
  have hbase : s.regs .rbp - 40 = s.regs .rsp := by
    rw [hrsp, hrbp, State.setReg_of_ne _ _ (by decide), hrsp₁]
    rfl
  refine ⟨hrbp, ?_, ?_⟩
  · rw [stackWords_setReg _ _ _ (by decide), hmap, show stackWords s₁ 2 = _ from hwords₁] at hwords
    unfold frameWords
    rw [hbase]
    exact hwords
  · unfold Depth
    rw [← hbase]
    rfl

/-! ## Moving the parameters -/

theorem steady_of_regs {i : Instr} (hrsp : Reg.rsp ∉ i.destRegs) (hrbp : Reg.rbp ∉ i.destRegs)
    (hmem : i.destMem = none) : Steady i :=
  ⟨hrsp, hrbp, fun base disp h => by rw [hmem] at h; cases h⟩

theorem steady_store {src : Reg} {off : BitVec 32} (h : BelowSaved off) :
    Steady (storeLocal src off).instr where
  rsp := List.not_mem_nil
  rbp := List.not_mem_nil
  mem := by
    intro base disp hdest
    obtain ⟨rfl, rfl⟩ := Prod.mk.inj (Option.some.inj hdest)
    exact ⟨off, rfl, rfl, h⟩

/-- Registers that code may write freely. -/
def Free (r : Reg) : Prop := r ≠ .rsp ∧ r ≠ .rbp

theorem Free.not_mem {r : Reg} (h : Free r) : Reg.rsp ∉ [r] ∧ Reg.rbp ∉ [r] := by
  simp [h.1.symm, h.2.symm]

theorem WellPlaced.free {n : Nat} {r : Reg} (h : WellPlaced n (.reg r)) : Free r := by
  refine ⟨?_, ?_⟩ <;> rintro rfl <;> exact h (.inl (by decide))

theorem steady_mov {dst : Reg} (src : Reg) (h : Free dst) : Steady (movRegReg dst src).instr :=
  steady_of_regs h.not_mem.1 h.not_mem.2 rfl

theorem steady_load {dst : Reg} (off : BitVec 32) (h : Free dst) :
    Steady (loadParam dst off).instr :=
  steady_of_regs h.not_mem.1 h.not_mem.2 rfl

theorem paramCode_steady (i : Nat) {n : Nat} {l : Location} (h : WellPlaced n l) :
    SteadyCode (paramCode i l) := by
  have hrax : Free .rax := ⟨by decide, by decide⟩
  unfold paramCode
  cases l with
  | reg r =>
    have hr := h.free
    split
    · dsimp only
      split
      · simp [steady_mov _ hr]
      · simp
    · simp [steady_load _ hr]
  | stack off =>
    have hstore : ∀ src, Steady (storeLocal src off).instr := fun _ => steady_store h.1
    split <;> simp [hstore, steady_load _ hrax]
  | const imm => exact h.elim
  | none => exact h.elim

theorem paramCode_total (i : Nat) (l : Location) : ∀ e ∈ paramCode i l, e.instr.total = true := by
  have hmov : ∀ dst src, (movRegReg dst src).instr.total = true := fun _ _ => rfl
  have hload : ∀ dst off, (loadParam dst off).instr.total = true := fun _ _ => rfl
  have hstore : ∀ src off, (storeLocal src off).instr.total = true := fun _ _ => rfl
  unfold paramCode
  split <;> split <;> try split
  all_goals simp [hmov, hload, hstore]

section

variable {f : IRFunction} {p : Nat}

/-- The locations of the parameters are well placed. -/
theorem entered_wellPlaced (ctx : JITContext) (hstack : f.stackCount ≤ maxIrInstructionsPerFunction)
    (hp : p < maxVregsPerFunction) {k : Nat} (hk : k < p) :
    WellPlaced f.stackCount ((ctx.entered f p).vregMap (k + 1)) := by
  have halloc := (fresh_allocated ctx f.stackCount).touchAll (List.range' 1 p)
  have hbase : (ctx.entered f p).stackBase = f.stackCount := JITContext.touchAll_stackBase _ _
  have hmem : k + 1 ∈ List.range' 1 p := by
    rw [List.mem_range'_1]
    omega
  have hne := JITContext.touchAll_ne_none (ctx.fresh f.stackCount) _ hmem
  have h := halloc.wellPlaced (hbase.trans_le hstack) (v := k + 1) (by omega) hne
  rwa [show ((ctx.fresh f.stackCount).touchAll (List.range' 1 p)).stackBase = _ from hbase] at h

theorem paramsCode_steady (ctx : JITContext) (hstack : f.stackCount ≤ maxIrInstructionsPerFunction)
    (hp : p < maxVregsPerFunction) : SteadyCode (paramsCode (ctx.entered f p).vregMap 0 p) := by
  intro e he
  obtain ⟨k, hk, hmem⟩ := List.mem_flatMap.mp he
  rw [List.mem_range'_1] at hk
  exact paramCode_steady k (entered_wellPlaced ctx hstack hp (by omega)) e hmem

/-- The pad makes the frame and the saved words a multiple of sixteen bytes. -/
theorem calculateAlignedStackSize_eq (f : IRFunction) :
    calculateAlignedStackSize f = 8 * (f.stackCount + f.vregCount) +
      if (f.stackCount + f.vregCount) % 2 = 0 then 8 else 0 := by
  unfold calculateAlignedStackSize
  generalize f.stackCount + f.vregCount = n
  show n * 8 + (if (8 * 2 + 5 * 8 + n * 8) % 16 = 0 then 0
    else 16 - (8 * 2 + 5 * 8 + n * 8) % 16) = _
  by_cases h : n % 2 = 0
  · rw [if_pos h, if_neg (by omega)]
    omega
  · rw [if_neg h, if_pos (by omega)]
    omega

theorem stackSize_lt (hstack : f.stackCount ≤ maxIrInstructionsPerFunction)
    (hvreg : f.vregCount ≤ maxIrInstructionsPerFunction) :
    calculateAlignedStackSize f < 2 ^ 31 := by
  have hmax : maxIrInstructionsPerFunction = 65536 := rfl
  rw [calculateAlignedStackSize_eq]
  split <;> omega

/-- The code before the parameters. -/
theorem exec_frameCode {size : Nat} (hsize : size < 2 ^ 31) {s₀ s : State}
    (h : execCode (frameCode size) s₀ = some s) : Entered size s₀ s := by
  have hsplit : frameCode size =
      saveCode ++ if size > 0 then [subRsp (BitVec.ofNat 32 size)] else [] := rfl
  rw [hsplit, execCode_append] at h
  obtain ⟨s₁, hs₁, h⟩ := Option.bind_eq_some_iff.mp h
  obtain ⟨hrbp, hwords, hdepth⟩ := exec_saveCode hs₁
  have hmoves : Moves (if size > 0 then [subRsp (BitVec.ofNat 32 size)] else []) 0 size := by
    split
    · have hsub := Moves.sub 0 hsize
      rwa [Nat.zero_add] at hsub
    · obtain rfl : size = 0 := by omega
      exact .nil 0
  obtain ⟨hdepth', hguard⟩ := hmoves s₁ s hdepth h
  exact ⟨hguard.rbp.trans hrbp, hguard.words.trans hwords, hdepth'⟩

theorem frameCode_total (size : Nat) : ∀ e ∈ frameCode size, e.instr.total = true := by
  have hpush : ∀ r, (push r).instr.total = true := fun _ => rfl
  have hmov : ∀ dst src, (movRegReg dst src).instr.total = true := fun _ _ => rfl
  have hsub : ∀ imm, (subRsp imm).instr.total = true := fun _ => rfl
  unfold frameCode
  split <;> simp [hpush, hmov, hsub]

theorem execCode_total {es : List Encoded} (h : ∀ e ∈ es, e.instr.total = true) (s : State) :
    ∃ s', execCode es s = some s' := by
  apply execList_total
  intro i hi
  obtain ⟨e, he, rfl⟩ := List.mem_map.mp hi
  exact h e he

/-- The prologue runs to its end, saves its words and opens a frame. -/
theorem prologue_entered (ctx : JITContext)
    (hstack : f.stackCount ≤ maxIrInstructionsPerFunction)
    (hvreg : f.vregCount ≤ maxIrInstructionsPerFunction) (hp : p < maxVregsPerFunction)
    (s₀ : State) :
    ∃ s, execCode (prologueOf ctx f p) s₀ = some s ∧
      Entered (calculateAlignedStackSize f) s₀ s := by
  obtain ⟨s₁, hs₁⟩ := execCode_total (frameCode_total (calculateAlignedStackSize f)) s₀
  have hparams : ∀ e ∈ paramsCode (ctx.entered f p).vregMap 0 p, e.instr.total = true := by
    intro e he
    obtain ⟨k, -, hmem⟩ := List.mem_flatMap.mp he
    exact paramCode_total k _ e hmem
  obtain ⟨s, hs⟩ := execCode_total hparams s₁
  obtain ⟨hrbp, hwords, hdepth⟩ := exec_frameCode (stackSize_lt hstack hvreg) hs₁
  obtain ⟨hdepth', hguard⟩ := Moves.steady (paramsCode_steady ctx hstack hp) _ s₁ s hdepth hs
  exact ⟨s, execCode_seq hs₁ hs, hguard.rbp.trans hrbp, hguard.words.trans hwords, hdepth'⟩

/-! ## The size of the frame -/

/-- A slot starts at or above `rsp`; both are measured from `rbp`. -/
def AboveRsp (s : State) (off : BitVec 32) : Prop :=
  (s.regs .rsp - s.regs .rbp).toInt ≤ off.toInt

theorem Depth.toInt {size : Nat} (hsize : size < 2 ^ 31) {s : State} (h : Depth size s) :
    (s.regs .rsp - s.regs .rbp).toInt = -(40 + size : Int) := by
  have hdist : s.regs .rsp - s.regs .rbp = BitVec.ofInt 64 (-(40 + size : Int)) := by
    have hneg : BitVec.ofInt 64 (-(40 + size : Int)) = -(BitVec.ofNat 64 (40 + size)) := by
      rw [BitVec.ofInt_neg]
      rfl
    have hsaved : calleeSavedSize = 40 := rfl
    unfold Depth at h
    rw [h, hneg, hsaved]
    bv_omega
  rw [hdist, BitVec.toInt_ofInt, Int.bmod_eq_of_le (by omega) (by omega)]

/-- Every slot that `get_location` and `get_local_offset` address, in whatever order the
virtual registers are located, is at or above `rsp`. -/
structure SlotsInFrame (ctx : JITContext) (f : IRFunction) (s : State) : Prop where
  locals : ∀ idx < f.stackCount, AboveRsp s (getLocalOffset idx)
  vregs : ∀ vs mem locs st, (∀ v ∈ vs, 1 ≤ v ∧ v < f.vregCount) →
    getLocations vs ⟨ctx.fresh f.stackCount, mem⟩ = some (locs, st) →
    ∀ off, .stack off ∈ locs → AboveRsp s off

/-- The frame has room for the slots or the pad, not for both: it holds every slot if and
only if the pad is there or no virtual register can be spilled. -/
theorem slotsInFrame_iff (ctx : JITContext)
    (hstack : f.stackCount ≤ maxIrInstructionsPerFunction)
    (hvreg : f.vregCount ≤ maxIrInstructionsPerFunction) (hp : p < maxVregsPerFunction)
    {s₀ s : State} (hrun : execCode (prologueOf ctx f p) s₀ = some s) :
    SlotsInFrame ctx f s ↔
      (f.stackCount + f.vregCount) % 2 = 0 ∨ (1 ≤ f.vregCount ∧ f.vregCount ≤ 6) := by
  have hmax : maxIrInstructionsPerFunction = 65536 := rfl
  have hmax' : maxVregsPerFunction = 65536 := rfl
  obtain ⟨s', hrun', -, -, hdepth⟩ := prologue_entered ctx hstack hvreg hp s₀
  obtain rfl : s = s' := Option.some.inj (hrun.symm.trans hrun')
  have hdist := hdepth.toInt (stackSize_lt hstack hvreg)
  have hsize := calculateAlignedStackSize_eq f
  have hlocal : ∀ idx < f.stackCount + f.vregCount, (AboveRsp s (getLocalOffset idx) ↔
      48 + (idx + 1) * 8 ≤ 40 + calculateAlignedStackSize f) := by
    intro idx hidx
    unfold AboveRsp
    rw [hdist, getLocalOffset_toInt (by omega)]
    omega
  have hlocations : ∀ vs mem, (∀ v ∈ vs, 1 ≤ v ∧ v < f.vregCount) →
      getLocations vs ⟨ctx.fresh f.stackCount, mem⟩ =
        some (vs.map ((ctx.fresh f.stackCount).touchAll vs).vregMap,
          ⟨(ctx.fresh f.stackCount).touchAll vs, mem⟩) := by
    intro vs mem hvs
    apply getLocations_eq
    intro v hv
    have := hvs v hv
    omega
  constructor
  · intro h
    by_contra hcond
    have hodd : (f.stackCount + f.vregCount) % 2 ≠ 0 := fun heven => hcond (.inl heven)
    rw [if_neg hodd] at hsize
    by_cases hzero : f.vregCount = 0
    · -- without virtual registers the last local is below `rsp`
      have hlast := h.locals (f.stackCount - 1) (by omega)
      rw [hlocal _ (by omega)] at hlast
      omega
    · -- otherwise the last virtual register is, once it is spilled
      have hseven : 7 ≤ f.vregCount := by
        by_contra hlt
        exact hcond (.inr ⟨by omega, by omega⟩)
      have hvs : ∀ v ∈ [1, 2, 3, 4, 5, f.vregCount - 1], 1 ≤ v ∧ v < f.vregCount := by
        intro v hv
        simp only [List.mem_cons, List.not_mem_nil, or_false] at hv
        omega
      have hspilled := spilled_sixth ctx f.stackCount (v := f.vregCount - 1) (by omega)
      have hmem : .stack (spillOffset f.stackCount (f.vregCount - 1)) ∈
          [1, 2, 3, 4, 5, f.vregCount - 1].map ((ctx.fresh f.stackCount).touchAll
            [1, 2, 3, 4, 5, f.vregCount - 1]).vregMap := by
        rw [← hspilled]
        exact List.mem_map_of_mem (by simp)
      have hlast := h.vregs _ (fun _ => 0) _ _ hvs (hlocations _ _ hvs) _ hmem
      rw [spillOffset_eq, hlocal _ (by omega)] at hlast
      omega
  · intro hcond
    have hroom : ∀ idx < f.stackCount + f.vregCount,
        ((f.stackCount + f.vregCount) % 2 = 0 ∨ idx + 1 < f.stackCount + f.vregCount) →
        AboveRsp s (getLocalOffset idx) := by
      intro idx hidx hor
      rw [hlocal idx hidx, hsize]
      split <;> omega
    refine ⟨fun idx hidx => hroom idx (by omega) (by omega), ?_⟩
    intro vs mem locs st hvs hlocs off hoff
    rw [hlocations vs mem hvs] at hlocs
    obtain ⟨rfl, -⟩ := Prod.mk.inj (Option.some.inj hlocs)
    obtain ⟨v, hv, hloc⟩ := List.mem_map.mp hoff
    have hv' := hvs v hv
    have halloc := (fresh_allocated ctx f.stackCount).touchAll vs
    have hslot := halloc.spill v off hloc
    have hbase : ((ctx.fresh f.stackCount).touchAll vs).stackBase = f.stackCount :=
      JITContext.touchAll_stackBase _ _
    rw [hslot, hbase, spillOffset_eq]
    rcases hcond with heven | ⟨-, hsix⟩
    · exact hroom _ (by omega) (.inl heven)
    · have hfew : ∀ w ∈ vs, 1 ≤ w ∧ w < 6 := by
        intro w hw
        have := hvs w hw
        omega
      exact absurd hloc (not_spilled hfew v off)

end

/-- `int main() { int x = 1; return -(-(x + 2 + 3)); }`. -/
def negatedTwice : ASTNode :=
  .function (intInfo 0) (svOf "main") .int []
    (.block (intInfo 1)
      [.varDecl (intInfo 2) (svOf "x") .int (.number (intInfo 3) (svOf "1")),
        .returnStmt (intInfo 4) (.unary .negate (intInfo 5) (.unary .negate (intInfo 6)
          (.binary .add (intInfo 7)
            (.binary .add (intInfo 8) (.identifier (intInfo 9) (svOf "x"))
              (.number (intInfo 10) (svOf "2")))
            (.number (intInfo 11) (svOf "3")))))]) false

/-- A function with a local, three of whose virtual registers are spilled. -/
theorem slotsInFrame_iff_negatedTwice :
    ∃ g s, irGen .zeroed negatedTwice .init none = .ok (true, g) ∧
      g.f.stackCount = 1 ∧ g.f.vregCount = 9 ∧
      ((jitCtxInit.entered g.f 0).afterAll g.f.instructions).vregMap 8 = .stack (-128) ∧
      execCode (prologueOf jitCtxInit g.f 0) ⟨fun _ => 0, none, fun _ => 0⟩ = some s ∧
      (SlotsInFrame jitCtxInit g.f s ↔
        (g.f.stackCount + g.f.vregCount) % 2 = 0 ∨
          (1 ≤ g.f.vregCount ∧ g.f.vregCount ≤ 6)) := by
  have hwith : generatesWith .zeroed negatedTwice .init none (fun g =>
      decide (((jitCtxInit.entered g.f 0).afterAll g.f.instructions).vregMap 8 = .stack (-128) ∧
        g.f.stackCount = 1 ∧ g.f.vregCount = 9)) = true := by
    decide +kernel
  obtain ⟨g, hgen, hproperty⟩ := exists_of_generatesWith hwith
  obtain ⟨hloc, hstack, hvreg⟩ := of_decide_eq_true hproperty
  have hstack' : g.f.stackCount ≤ maxIrInstructionsPerFunction := by rw [hstack]; decide
  have hvreg' : g.f.vregCount ≤ maxIrInstructionsPerFunction := by rw [hvreg]; decide
  obtain ⟨s, hrun, -⟩ := prologue_entered (p := 0) jitCtxInit hstack' hvreg' (by decide)
    ⟨fun _ => 0, none, fun _ => 0⟩
  exact ⟨g, s, hgen, hstack, hvreg, hloc, hrun,
    slotsInFrame_iff jitCtxInit hstack' hvreg' (by decide) hrun⟩

/-- `int main() { return -(1 + 2 + 3); }`. -/
def negatedSum : ASTNode :=
  .function (intInfo 0) (svOf "main") .int []
    (.block (intInfo 1) [.returnStmt (intInfo 2) (.unary .negate (intInfo 3)
      (.binary .add (intInfo 4)
        (.binary .add (intInfo 5) (.number (intInfo 6) (svOf "1"))
          (.number (intInfo 7) (svOf "2")))
        (.number (intInfo 8) (svOf "3"))))]) false

/-- The sixth virtual register of the function is spilled into the word below `rsp`. -/
theorem negatedSum_below_rsp :
    ∃ g s, irGen .zeroed negatedSum .init none = .ok (true, g) ∧
      execCode (prologueOf jitCtxInit g.f 0) ⟨fun _ => 0, none, fun _ => 0⟩ = some s ∧
      ((jitCtxInit.entered g.f 0).afterAll g.f.instructions).vregMap 6 = .stack (-104) ∧
      (s.regs .rsp - s.regs .rbp).toInt = -96 ∧ ¬ SlotsInFrame jitCtxInit g.f s := by
  have hwith : generatesWith .zeroed negatedSum .init none (fun g =>
      decide (((jitCtxInit.entered g.f 0).afterAll g.f.instructions).vregMap 6 = .stack (-104) ∧
        g.f.stackCount = 0 ∧ g.f.vregCount = 7)) = true := by
    decide +kernel
  obtain ⟨g, hgen, hproperty⟩ := exists_of_generatesWith hwith
  obtain ⟨hloc, hstack, hvreg⟩ := of_decide_eq_true hproperty
  obtain ⟨s, hrun, -, -, hdepth⟩ := prologue_entered (f := g.f) jitCtxInit (p := 0)
    (by rw [hstack]; decide) (by rw [hvreg]; decide) (by decide) ⟨fun _ => 0, none, fun _ => 0⟩
  have hsize : calculateAlignedStackSize g.f = 56 := by
    rw [calculateAlignedStackSize_eq, hstack, hvreg]
    rfl
  have hdist : (s.regs .rsp - s.regs .rbp).toInt = -96 := by
    rw [hdepth.toInt (by omega), hsize]
    rfl
  refine ⟨g, s, hgen, hrun, hloc, hdist, fun h => ?_⟩
  have hvs : ∀ v ∈ [1, 2, 3, 4, 5, 6], 1 ≤ v ∧ v < g.f.vregCount := by
    rw [hvreg]
    decide
  have hlocs := getLocations_eq (show ∀ v ∈ [1, 2, 3, 4, 5, 6], v < maxVregsPerFunction by decide)
    ⟨jitCtxInit.fresh g.f.stackCount, fun _ => 0⟩
  have hmem : .stack (spillOffset g.f.stackCount 6) ∈ [1, 2, 3, 4, 5, 6].map
      ((jitCtxInit.fresh g.f.stackCount).touchAll [1, 2, 3, 4, 5, 6]).vregMap := by
    rw [← spilled_sixth jitCtxInit g.f.stackCount (Nat.le_refl 6)]
    exact List.mem_map_of_mem (by simp)
  have hlast := h.vregs _ _ _ _ hvs hlocs _ hmem
  unfold AboveRsp at hlast
  rw [hdist, hstack] at hlast
  exact absurd hlast (by decide)

end TinyCompile.Jit
