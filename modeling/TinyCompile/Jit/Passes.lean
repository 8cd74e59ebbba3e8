import TinyCompile.Ir.Generated
import TinyCompile.Jit.PlanCorrect

set_option autoImplicit false

/-!
# Jit: the two passes

Both passes take the allocator and the pending arguments through the same states,
so the sizes agree instruction by instruction.
-/

namespace TinyCompile.Jit

open TinyCompile.Machine TinyCompile.X86 TinyCompile.Source TinyCompile.Ir

/-! ## The prologue -/

/-- Where the callee finds stack argument `i`, from six on. -/
def paramOffset (i : Nat) : BitVec 32 := BitVec.ofNat 32 (2 * wordSize + (i - 6) * wordSize)

/-- The code that moves parameter `i` to its location. -/
def paramCode (i : Nat) (l : Location) : List Encoded :=
  if i < 6 then
    match l with
    | .reg reg =>
        if reg ≠ argRegisters.getD i .rax then [movRegReg reg (argRegisters.getD i .rax)] else []
    | .stack offset => [storeLocal (argRegisters.getD i .rax) offset]
    | _ => []
  else
    match l with
    | .reg reg => [loadParam reg (paramOffset i)]
    | .stack offset => [loadParam .rax (paramOffset i), storeLocal .rax offset]
    | _ => [loadParam .rax (paramOffset i), storeLocal .rax 0]

/-- The code of `n` parameters from parameter `i` on. -/
def paramsCode (loc : Nat → Location) (i n : Nat) : List Encoded :=
  (List.range' i n).flatMap fun k => paramCode k (loc (k + 1))

/-- The code before the parameters. -/
def frameCode (stackSize : Nat) : List Encoded :=
  [push .rbp, movRegReg .rbp .rsp, push .rbx, push .r12, push .r13, push .r14, push .r15] ++
    if stackSize > 0 then [subRsp (BitVec.ofNat 32 stackSize)] else []

/-- The code of a prologue. -/
def prologueCode (loc : Nat → Location) (stackSize paramCount : Nat) : List Encoded :=
  frameCode stackSize ++ paramsCode loc 0 paramCount

theorem paramsCode_succ (loc : Nat → Location) (i n : Nat) :
    paramsCode loc i (n + 1) = paramCode i (loc (i + 1)) ++ paramsCode loc (i + 1) n := by
  simp [paramsCode, List.range'_succ]

theorem storeParams_eq (n i : Nat) (o : Out) (s : JITState)
    (h : i + n < maxVregsPerFunction) :
    storeParams n i o s =
      some (emitBytes (bytesOf (paramsCode (s.ctx.touchAll (List.range' (i + 1) n)).vregMap i n)) o,
        { s with ctx := s.ctx.touchAll (List.range' (i + 1) n) }) := by
  induction n generalizing i o s with
  | zero => simp [storeParams, paramsCode, pure, StateT.pure]
  | succ n ih =>
    have hnext : ∀ o', storeParams n (i + 1) o' { s with ctx := s.ctx.touch (i + 1) } = _ :=
      fun o' => ih (i + 1) o' { s with ctx := s.ctx.touch (i + 1) } (by omega)
    rw [storeParams, getLocation_bind (by omega), List.range'_succ, JITContext.touchAll_cons,
      paramsCode_succ, JITContext.touchAll_touched, bytesOf_append, emitBytes_append]
    unfold paramCode
    split
    · cases hloc : (s.ctx.touch (i + 1)).vregMap (i + 1) with
      | reg reg =>
        simp only [hnext]
        generalize argRegisters.getD i .rax = src
        by_cases hreg : reg = src <;> simp [hreg, emitMovRegReg_eq]
      | stack offset =>
        simp only [hnext, emitStoreLocal_eq, bytesOf_cons, bytesOf_nil, List.append_nil]
      | none => simp only [hnext, bytesOf_nil, emitBytes_nil]
      | const c => simp only [hnext, bytesOf_nil, emitBytes_nil]
    · cases hloc : (s.ctx.touch (i + 1)).vregMap (i + 1) <;>
        simp only [hnext, emitStoreLocal_eq, emitLoadParam_eq, bytesOf_cons, bytesOf_nil,
          List.append_nil, emitBytes_append, paramOffset]

theorem encodePrologue_eq (buf : Ptr) (stackSize paramCount : Nat) (s : JITState)
    (h : paramCount < maxVregsPerFunction) :
    encodePrologue buf stackSize paramCount s =
      let ctx := s.ctx.touchAll (List.range' 1 paramCount)
      let o := emitBytes (bytesOf (prologueCode ctx.vregMap stackSize paramCount))
        ⟨buf, 0, s.mem⟩
      some (o.size, ⟨ctx, o.mem⟩) := by
  have hframe : ∀ o : Out,
      (if stackSize > 0 then
        emitRspImm EXT_SUB (BitVec.ofNat 32 stackSize) (o |> emitPush .rbp
          |> emitMovRegReg .rbp .rsp |> emitPush .rbx |> emitPush .r12 |> emitPush .r13
          |> emitPush .r14 |> emitPush .r15)
      else o |> emitPush .rbp |> emitMovRegReg .rbp .rsp |> emitPush .rbx |> emitPush .r12
          |> emitPush .r13 |> emitPush .r14 |> emitPush .r15) =
        emitBytes (bytesOf (frameCode stackSize)) o := by
    intro o
    unfold frameCode
    by_cases hsize : stackSize > 0 <;>
      simp [hsize, emitRspImm_sub, emitPush_eq, emitMovRegReg_eq, emitBytes_append]
  unfold encodePrologue
  rw [get_bind]
  simp only [hframe]
  rw [bind_of_some (storeParams_eq paramCount 0 _ s (by omega))]
  simp only [prologueCode, bytesOf_append, emitBytes_append]
  rfl

/-! ## The plan of a function -/

/-- The pending arguments after some instructions. -/
def pendingAt (pending : List Nat) (insts : List IRInstruction) : List Nat :=
  insts.foldl pendingAfter pending

@[simp] theorem pendingAt_nil (pending : List Nat) : pendingAt pending [] = pending := rfl

@[simp] theorem pendingAt_cons (pending : List Nat) (inst : IRInstruction)
    (insts : List IRInstruction) :
    pendingAt pending (inst :: insts) = pendingAt (pendingAfter pending inst) insts := rfl

theorem pendingAt_append (pending : List Nat) (insts insts' : List IRInstruction) :
    pendingAt pending (insts ++ insts') = pendingAt (pendingAt pending insts) insts' := by
  simp [pendingAt]

/-- The code of consecutive instructions, for given locations. -/
def bodyItems (loc : Nat → Location) : List Nat → List IRInstruction → List Item
  | _, [] => []
  | pending, inst :: rest =>
      itemsOf loc pending inst ++ bodyItems loc (pendingAfter pending inst) rest

namespace JITContext

/-- The context after an instruction, as far as the plan goes. -/
def after (ctx : JITContext) (inst : IRInstruction) : JITContext :=
  { ctx.touchAll (touched ctx.pendingCall inst) with
    pendingCall := pendingAfter ctx.pendingCall inst }

/-- The context after some instructions, as far as the plan goes. -/
def afterAll (ctx : JITContext) (insts : List IRInstruction) : JITContext :=
  insts.foldl after ctx

@[simp] theorem afterAll_nil (ctx : JITContext) : ctx.afterAll [] = ctx := rfl

@[simp] theorem afterAll_cons (ctx : JITContext) (inst : IRInstruction)
    (insts : List IRInstruction) :
    ctx.afterAll (inst :: insts) = (ctx.after inst).afterAll insts := rfl

theorem afterAll_append (ctx : JITContext) (insts insts' : List IRInstruction) :
    ctx.afterAll (insts ++ insts') = (ctx.afterAll insts).afterAll insts' := by
  simp [afterAll]

theorem afterAll_pendingCall (ctx : JITContext) (insts : List IRInstruction) :
    (ctx.afterAll insts).pendingCall = pendingAt ctx.pendingCall insts := by
  induction insts generalizing ctx with
  | nil => rfl
  | cons inst insts ih => exact ih (ctx.after inst)

theorem after_assigned (ctx : JITContext) (inst : IRInstruction) {w : Nat}
    (h : ctx.vregMap w ≠ .none) : (ctx.after inst).vregMap w = ctx.vregMap w :=
  ctx.touchAll_assigned _ h

theorem afterAll_assigned (ctx : JITContext) (insts : List IRInstruction) {w : Nat}
    (h : ctx.vregMap w ≠ .none) : (ctx.afterAll insts).vregMap w = ctx.vregMap w := by
  induction insts generalizing ctx with
  | nil => rfl
  | cons inst insts ih =>
    have hw := ctx.after_assigned inst h
    rw [afterAll_cons, ih _ (by rwa [hw]), hw]

/-- The number of bytes of an instruction. -/
def sizeOf (ctx : JITContext) (inst : IRInstruction) : Nat :=
  itemsSize (itemsOf (ctx.after inst).vregMap ctx.pendingCall inst)

/-- The number of bytes of consecutive instructions. -/
def sizeOfAll : JITContext → List IRInstruction → Nat
  | _, [] => 0
  | ctx, inst :: rest => ctx.sizeOf inst + sizeOfAll (ctx.after inst) rest

theorem sizeOfAll_append (ctx : JITContext) (insts insts' : List IRInstruction) :
    ctx.sizeOfAll (insts ++ insts') =
      ctx.sizeOfAll insts + (ctx.afterAll insts).sizeOfAll insts' := by
  induction insts generalizing ctx with
  | nil => simp [sizeOfAll]
  | cons inst insts ih => simp [sizeOfAll, ih, Nat.add_assoc]

/-- Two contexts that agree in what the plan depends on. -/
structure SamePlan (ctx ctx' : JITContext) : Prop where
  vregMap : ctx.vregMap = ctx'.vregMap
  physRegs : ctx.physRegs = ctx'.physRegs
  stackBase : ctx.stackBase = ctx'.stackBase
  pendingCall : ctx.pendingCall = ctx'.pendingCall

theorem SamePlan.refl (ctx : JITContext) : ctx.SamePlan ctx := ⟨rfl, rfl, rfl, rfl⟩

theorem SamePlan.symm {a b : JITContext} (h : a.SamePlan b) : b.SamePlan a :=
  ⟨h.vregMap.symm, h.physRegs.symm, h.stackBase.symm, h.pendingCall.symm⟩

theorem SamePlan.trans {a b c : JITContext} (h : a.SamePlan b) (h' : b.SamePlan c) :
    a.SamePlan c :=
  ⟨h.vregMap.trans h'.vregMap, h.physRegs.trans h'.physRegs, h.stackBase.trans h'.stackBase,
    h.pendingCall.trans h'.pendingCall⟩

theorem SamePlan.touch {ctx ctx' : JITContext} (h : ctx.SamePlan ctx') (v : Nat) :
    (ctx.touch v).SamePlan (ctx'.touch v) := by
  obtain ⟨h1, h2, h3, h4⟩ := h
  refine ⟨?_, ?_, h3, h4⟩
  · show (allocate _ _ _ v).2.1 = (allocate _ _ _ v).2.1
    rw [h1, h2, h3]
  · show (allocate _ _ _ v).2.2 = (allocate _ _ _ v).2.2
    rw [h1, h2, h3]

theorem SamePlan.touchAll {ctx ctx' : JITContext} (h : ctx.SamePlan ctx') (vs : List Nat) :
    (ctx.touchAll vs).SamePlan (ctx'.touchAll vs) := by
  induction vs generalizing ctx ctx' with
  | nil => exact h
  | cons v vs ih => exact ih (h.touch v)

theorem SamePlan.after {ctx ctx' : JITContext} (h : ctx.SamePlan ctx') (inst : IRInstruction) :
    (ctx.after inst).SamePlan (ctx'.after inst) := by
  have ht := h.touchAll (touched ctx'.pendingCall inst)
  unfold JITContext.after
  rw [h.pendingCall]
  exact ⟨ht.vregMap, ht.physRegs, ht.stackBase, rfl⟩

theorem SamePlan.sizeOf {ctx ctx' : JITContext} (h : ctx.SamePlan ctx')
    (inst : IRInstruction) : ctx.sizeOf inst = ctx'.sizeOf inst := by
  unfold JITContext.sizeOf
  rw [(h.after inst).vregMap, h.pendingCall]

theorem SamePlan.afterAll {ctx ctx' : JITContext} (h : ctx.SamePlan ctx')
    (insts : List IRInstruction) : (ctx.afterAll insts).SamePlan (ctx'.afterAll insts) := by
  induction insts generalizing ctx ctx' with
  | nil => exact h
  | cons inst insts ih => exact ih (h.after inst)

theorem sizeOfAll_congr {ctx ctx' : JITContext} (h : ctx.SamePlan ctx')
    (insts : List IRInstruction) : ctx.sizeOfAll insts = ctx'.sizeOfAll insts := by
  induction insts generalizing ctx ctx' with
  | nil => rfl
  | cons inst insts ih => simp only [sizeOfAll, h.sizeOf inst, ih (h.after inst)]

end JITContext

/-- Every instruction can be encoded where it stands. -/
def CodeEncodable : List Nat → List IRInstruction → Prop
  | _, [] => True
  | pending, inst :: rest =>
      Encodable pending inst ∧ CodeEncodable (pendingAfter pending inst) rest

theorem CodeEncodable.at {pending : List Nat} {pre post : List IRInstruction}
    {inst : IRInstruction} (h : CodeEncodable pending (pre ++ inst :: post)) :
    Encodable (pendingAt pending pre) inst := by
  induction pre generalizing pending with
  | nil => exact h.1
  | cons i pre ih => exact ih h.2

theorem CodeEncodable.left {pending : List Nat} {pre post : List IRInstruction}
    (h : CodeEncodable pending (pre ++ post)) : CodeEncodable pending pre := by
  induction pre generalizing pending with
  | nil => trivial
  | cons i pre ih => exact ⟨h.1, ih h.2⟩

/-! ## One instruction in the passes -/

theorem emitItem_samePlan (buf : Ptr) (item : Item) (a : Asm) :
    (emitItem buf item a).ctx.SamePlan a.ctx := by
  cases item with
  | code e => exact .refl _
  | jump c l =>
    simp only [emitItem]
    split
    · exact .refl _
    · split <;> exact ⟨rfl, rfl, rfl, rfl⟩
  | label l =>
    simp only [emitItem]
    split <;> exact ⟨rfl, rfl, rfl, rfl⟩
  | callSite name => exact ⟨rfl, rfl, rfl, rfl⟩

theorem emitItems_samePlan (buf : Ptr) (items : List Item) (a : Asm) :
    (emitItems buf items a).ctx.SamePlan a.ctx := by
  induction items generalizing a with
  | nil => exact .refl _
  | cons item items ih => exact (ih _).trans (emitItem_samePlan buf item a)

/-- The plan of an instruction does not depend on the buffer. -/
theorem planned_samePlan (buf : Ptr) (inst : IRInstruction) (s : JITState) :
    (planned buf inst s).2.ctx.SamePlan (s.ctx.after inst) := by
  obtain ⟨h1, h2, h3, -⟩ := emitItems_samePlan buf
    (itemsOf (s.ctx.touchAll (touched s.ctx.pendingCall inst)).vregMap s.ctx.pendingCall inst)
    ⟨s.ctx.touchAll (touched s.ctx.pendingCall inst), ⟨buf, 0, s.mem⟩⟩
  exact ⟨h1, h2, h3, rfl⟩

/-- The size of an instruction does not depend on the buffer. -/
theorem planned_size (buf : Ptr) (inst : IRInstruction) (s : JITState) :
    (planned buf inst s).1 = s.ctx.sizeOf inst :=
  (emitItems_size ..).trans (Nat.zero_add _)

/-- Without a buffer nothing but the plan happens. -/
theorem emitItem_null (item : Item) (ctx : JITContext) (size : Nat) (mem : Mem) :
    emitItem 0 item ⟨ctx, ⟨0, size, mem⟩⟩ = ⟨ctx, ⟨0, size + item.size, mem⟩⟩ := by
  cases item with
  | code e => simp only [emitItem, emitBytes_null, Item.size]
  | jump c l => simp only [emitItem, emitBytes_null, if_true, Item.size, Nat.add_assoc]
  | label l => simp [emitItem, Item.size]
  | callSite name =>
    simp only [emitItem, emitBytes_null, ne_eq, not_true, false_and, if_false, leBytes_length,
      Item.size, Nat.add_assoc]

theorem emitItems_null (items : List Item) (ctx : JITContext) (size : Nat) (mem : Mem) :
    emitItems 0 items ⟨ctx, ⟨0, size, mem⟩⟩ = ⟨ctx, ⟨0, size + itemsSize items, mem⟩⟩ := by
  induction items generalizing size with
  | nil => rfl
  | cons item items ih => rw [emitItems_cons, emitItem_null, ih, itemsSize_cons, Nat.add_assoc]

theorem planned_null (inst : IRInstruction) (s : JITState) :
    planned 0 inst s = (s.ctx.sizeOf inst, ⟨s.ctx.after inst, s.mem⟩) := by
  simp only [planned, emitItems_null]
  rw [Nat.zero_add]
  rfl

/-! ## The passes over the instructions -/

theorem sizeInsts_eq {insts : List IRInstruction} {ctx : JITContext} {mem : Mem}
    (h : CodeEncodable ctx.pendingCall insts) (size count : Nat) :
    sizeInsts insts (size, count) ⟨ctx, mem⟩ =
      some ((size + ctx.sizeOfAll insts, count + insts.length), ⟨ctx.afterAll insts, mem⟩) := by
  induction insts generalizing ctx size count with
  | nil => rfl
  | cons inst rest ih =>
    have hinst : encodeInst 0 inst ⟨ctx, mem⟩ =
        some (ctx.sizeOf inst, ⟨ctx.after inst, mem⟩) := by
      rw [encodeInst_eq h.1, planned_null]
    rw [sizeInsts, bind_of_some hinst, @ih (ctx.after inst) h.2]
    simp only [JITContext.sizeOfAll, JITContext.afterAll_cons, List.length_cons]
    rw [Nat.add_assoc, Nat.add_assoc, Nat.add_comm 1]

theorem sizeChunks_eq (chunks : List IRChunk) (acc : Nat × Nat) :
    sizeChunks chunks acc = sizeInsts (chunkInstructions chunks) acc := by
  have happend : ∀ (insts insts' : List IRInstruction) (acc : Nat × Nat),
      sizeInsts (insts ++ insts') acc =
        sizeInsts insts acc >>= fun acc => sizeInsts insts' acc := by
    intro insts
    induction insts with
    | nil => exact fun _ _ => rfl
    | cons inst insts ih =>
      intro insts' acc
      obtain ⟨size, count⟩ := acc
      simp only [List.cons_append, sizeInsts, bind_assoc, ih]
  induction chunks generalizing acc with
  | nil => rfl
  | cons chunk chunks ih =>
    have hcons : chunkInstructions (chunk :: chunks) =
        chunk.instructions ++ chunkInstructions chunks := rfl
    rw [hcons, happend, sizeChunks]
    exact bind_congr fun acc => ih acc

theorem writeInsts_append (code : Ptr) (predictedSize : Nat)
    (insts insts' : List IRInstruction) (writePtr : Ptr) :
    writeInsts code predictedSize (insts ++ insts') writePtr =
      (do
        let some writePtr ← writeInsts code predictedSize insts writePtr | return none
        writeInsts code predictedSize insts' writePtr) := by
  induction insts generalizing writePtr with
  | nil => rfl
  | cons inst insts ih =>
    simp only [List.cons_append, writeInsts, bind_assoc]
    refine bind_congr fun size => ?_
    split
    · rfl
    · exact ih _

theorem writeChunks_eq (code : Ptr) (predictedSize : Nat) (chunks : List IRChunk)
    (writePtr : Ptr) :
    writeChunks code predictedSize chunks writePtr =
      writeInsts code predictedSize (chunkInstructions chunks) writePtr := by
  induction chunks generalizing writePtr with
  | nil => rfl
  | cons chunk chunks ih =>
    have hcons : chunkInstructions (chunk :: chunks) =
        chunk.instructions ++ chunkInstructions chunks := rfl
    rw [hcons, writeInsts_append, writeChunks]
    refine bind_congr fun found => ?_
    cases found with
    | none => rfl
    | some writePtr => exact ih writePtr

/-- The state after consecutive instructions are written from `ptr` on. -/
def writeState : Ptr → List IRInstruction → JITState → JITState
  | _, [], s => s
  | ptr, inst :: rest, s =>
      writeState (ptr + BitVec.ofNat 64 (planned ptr inst s).1) rest (planned ptr inst s).2

theorem writeState_samePlan (ptr : Ptr) (insts : List IRInstruction) (s : JITState) :
    (writeState ptr insts s).ctx.SamePlan (s.ctx.afterAll insts) := by
  induction insts generalizing ptr s with
  | nil => exact .refl _
  | cons inst insts ih =>
    exact (ih _ _).trans ((planned_samePlan ptr inst s).afterAll insts)

/-- Writing within the predicted size. -/
theorem writeInsts_eq {code : Ptr} {predictedSize : Nat} {insts : List IRInstruction}
    {s : JITState} (h : CodeEncodable s.ctx.pendingCall insts) {size : Nat}
    (hfits : size + s.ctx.sizeOfAll insts ≤ predictedSize) :
    writeInsts code predictedSize insts (code + BitVec.ofNat 64 size) s =
      some (some (code + BitVec.ofNat 64 (size + s.ctx.sizeOfAll insts)),
        writeState (code + BitVec.ofNat 64 size) insts s) := by
  induction insts generalizing size s with
  | nil => rfl
  | cons inst rest ih =>
    have hinst : encodeInst (code + BitVec.ofNat 64 size) inst s =
        some ((planned (code + BitVec.ofNat 64 size) inst s).1,
          (planned (code + BitVec.ofNat 64 size) inst s).2) := encodeInst_eq h.1
    have hsize := planned_size (code + BitVec.ofNat 64 size) inst s
    have hplan := planned_samePlan (code + BitVec.ofNat 64 size) inst s
    have hrest : CodeEncodable
        (planned (code + BitVec.ofNat 64 size) inst s).2.ctx.pendingCall rest := by
      rw [hplan.pendingCall]
      exact h.2
    have hsizes := JITContext.sizeOfAll_congr hplan rest
    simp only [JITContext.sizeOfAll] at hfits ⊢
    rw [writeInsts, bind_of_some hinst]
    have hadvance : code + BitVec.ofNat 64 size +
        BitVec.ofNat 64 (planned (code + BitVec.ofNat 64 size) inst s).1 =
        code + BitVec.ofNat 64 (size + s.ctx.sizeOf inst) := by
      rw [hsize, add_ofNat_add]
    have hwritten : ¬ (code + BitVec.ofNat 64 (size + s.ctx.sizeOf inst) - code).toNat >
        predictedSize := by
      rw [show code + BitVec.ofNat 64 (size + s.ctx.sizeOf inst) - code =
        BitVec.ofNat 64 (size + s.ctx.sizeOf inst) by rw [BitVec.add_comm, BitVec.add_sub_cancel]]
      have := Nat.mod_le (size + s.ctx.sizeOf inst) (2 ^ 64)
      rw [BitVec.toNat_ofNat]
      omega
    simp only [hadvance, hwritten, if_false]
    have hih := @ih _ hrest (size + s.ctx.sizeOf inst) (by rw [hsizes]; omega)
    rw [hsizes] at hih
    rw [writeState, hadvance, ← Nat.add_assoc]
    exact hih

/-! ## Where both passes start -/

/-- The context after `reset_state`, with the stack base of a function. -/
def JITContext.fresh (ctx : JITContext) (stackBase : Nat) : JITContext :=
  { ctx with
    pendingCall := []
    patches := []
    labelOffset := fun _ => 0
    labelDefined := fun _ => false
    vregMap := fun _ => .none
    physRegs := fun _ => false
    stackBase := stackBase }

/-- The context after the prologue of a function. -/
def JITContext.entered (ctx : JITContext) (f : IRFunction) (paramCount : Nat) : JITContext :=
  (ctx.fresh f.stackCount).touchAll (List.range' 1 paramCount)

/-- The code of the prologue of a function. -/
def prologueOf (ctx : JITContext) (f : IRFunction) (paramCount : Nat) : List Encoded :=
  prologueCode (ctx.entered f paramCount).vregMap (calculateAlignedStackSize f) paramCount

/-- The number of bytes of a function. -/
def functionSize (ctx : JITContext) (f : IRFunction) (paramCount : Nat) : Nat :=
  (bytesOf (prologueOf ctx f paramCount)).length +
    (ctx.entered f paramCount).sizeOfAll f.instructions

/-- The state after the prologue is written. -/
def enteredState (code : Ptr) (f : IRFunction) (paramCount : Nat) (s : JITState) : JITState :=
  ⟨s.ctx.entered f paramCount,
    (emitBytes (bytesOf (prologueOf s.ctx f paramCount)) ⟨code, 0, s.mem⟩).mem⟩

/-- The state after both passes. -/
def compiledState (code : Ptr) (f : IRFunction) (paramCount : Nat) (s : JITState) : JITState :=
  writeState (code + BitVec.ofNat 64 (bytesOf (prologueOf s.ctx f paramCount)).length)
    f.instructions (enteredState code f paramCount s)

theorem JITContext.afterAll_rest {ctx : JITContext} (insts : List IRInstruction) :
    (ctx.afterAll insts).registry = ctx.registry ∧
      (ctx.afterAll insts).callSites = ctx.callSites ∧
      (ctx.afterAll insts).callSiteCapacity = ctx.callSiteCapacity := by
  induction insts generalizing ctx with
  | nil => exact ⟨rfl, rfl, rfl⟩
  | cons inst insts ih =>
    obtain ⟨h1, h2, h3⟩ := @ih (ctx.after inst)
    have hrest := ctx.touchAll_rest (touched ctx.pendingCall inst)
    exact ⟨h1.trans hrest.registry, h2.trans hrest.callSites, h3.trans hrest.callSiteCapacity⟩

theorem JITContext.afterAll_stackBase {ctx : JITContext} (insts : List IRInstruction) :
    (ctx.afterAll insts).stackBase = ctx.stackBase := by
  induction insts generalizing ctx with
  | nil => rfl
  | cons inst insts ih => exact (@ih (ctx.after inst)).trans (touchAll_stackBase _ _)

/-- The first pass leaves nothing behind that the second reset keeps. -/
theorem fresh_after_passOne (ctx : JITContext) (f : IRFunction) (paramCount : Nat)
    (insts : List IRInstruction) :
    ((ctx.entered f paramCount).afterAll insts).fresh f.stackCount = ctx.fresh f.stackCount := by
  obtain ⟨h1, h2, h3⟩ := @JITContext.afterAll_rest (ctx.entered f paramCount) insts
  have hrest := (ctx.fresh f.stackCount).touchAll_rest (List.range' 1 paramCount)
  have h1' := h1.trans hrest.registry
  have h2' := h2.trans hrest.callSites
  have h3' := h3.trans hrest.callSiteCapacity
  unfold JITContext.fresh at *
  rw [h1', h2', h3']

theorem modify_bind {α : Type} (g : JITState → JITState) (k : PUnit → JitM α) (s : JITState) :
    ((modify g : JitM PUnit) >>= k) s = k ⟨⟩ (g s) := rfl

theorem emitItems_registry (buf : Ptr) (items : List Item) (a : Asm) :
    (emitItems buf items a).ctx.registry = a.ctx.registry := by
  induction items generalizing a with
  | nil => rfl
  | cons item items ih =>
    refine (ih _).trans ?_
    cases item with
    | code e => rfl
    | jump c l =>
      simp only [emitItem]
      split
      · rfl
      · split <;> rfl
    | label l =>
      simp only [emitItem]
      split <;> rfl
    | callSite name => rfl

theorem writeState_registry (ptr : Ptr) (insts : List IRInstruction) (s : JITState) :
    (writeState ptr insts s).ctx.registry = s.ctx.registry := by
  induction insts generalizing ptr s with
  | nil => rfl
  | cons inst insts ih =>
    refine (ih _ _).trans ?_
    refine (emitItems_registry ptr _ _).trans ?_
    exact (s.ctx.touchAll_rest _).registry

theorem compiledState_registry (code : Ptr) (f : IRFunction) (paramCount : Nat)
    (s : JITState) : (compiledState code f paramCount s).ctx.registry = s.ctx.registry :=
  (writeState_registry ..).trans ((s.ctx.fresh f.stackCount).touchAll_rest _).registry

/-- The state after a function is compiled, which is registered while there is room. -/
def registeredState (code : Ptr) (f : IRFunction) (name : StringView) (paramCount : Nat)
    (s : JITState) : JITResult × JITState :=
  let size := functionSize s.ctx f paramCount
  let s' := compiledState code f paramCount s
  if s.ctx.registry.length ≥ maxFunctionCount then (⟨0, 0⟩, s')
  else (⟨code, size⟩, { s' with ctx := { s'.ctx with
    registry := s.ctx.registry ++ [⟨name, code, size⟩] } })

/-- `jit_compile_function` on encodable instructions. -/
theorem jitCompileFunction_eq {f : IRFunction} {name : StringView} {paramCount : Nat}
    {code : Ptr} {s : JITState} (hlabels : f.labelCount < maxLabels)
    (hparams : paramCount < maxVregsPerFunction) (htotal : f.totalCount = f.instructions.length)
    (hcode : CodeEncodable [] f.instructions)
    (hsize : functionSize s.ctx f paramCount < 2 ^ 64) :
    jitCompileFunction f name paramCount code s =
      some (.returned (registeredState code f name paramCount s).1,
        (registeredState code f name paramCount s).2) := by
  have hpending : (s.ctx.entered f paramCount).pendingCall = [] :=
    JITContext.touchAll_pendingCall _ _
  have hcode' : CodeEncodable (s.ctx.entered f paramCount).pendingCall f.instructions := by
    rwa [hpending]
  -- the first pass
  have hprologue : encodePrologue 0 (calculateAlignedStackSize f) paramCount
      ⟨s.ctx.fresh f.stackCount, s.mem⟩ =
      some ((bytesOf (prologueOf s.ctx f paramCount)).length,
        ⟨s.ctx.entered f paramCount, s.mem⟩) := by
    rw [encodePrologue_eq _ _ _ _ hparams]
    simp only [emitBytes_null, Nat.zero_add]
    rfl
  have hfirst := @sizeInsts_eq _ _ s.mem hcode'
    (bytesOf (prologueOf s.ctx f paramCount)).length 0
  -- the second pass
  have hreset : ∀ ctx : JITContext, ctx.stackBase = f.stackCount →
      resetState ⟨ctx, s.mem⟩ = some (⟨⟩, ⟨ctx.fresh f.stackCount, s.mem⟩) := by
    rintro ctx hbase
    unfold JITContext.fresh
    rw [← hbase]
    rfl
  have hbase : ((s.ctx.entered f paramCount).afterAll f.instructions).stackBase = f.stackCount :=
    (JITContext.afterAll_stackBase _).trans (JITContext.touchAll_stackBase _ _)
  have hprologue' : encodePrologue code (calculateAlignedStackSize f) paramCount
      ⟨s.ctx.fresh f.stackCount, s.mem⟩ =
      some ((bytesOf (prologueOf s.ctx f paramCount)).length,
        enteredState code f paramCount s) := by
    rw [encodePrologue_eq _ _ _ _ hparams]
    simp only [emitBytes_size, Nat.zero_add]
    rfl
  have hsecond := @writeInsts_eq code (functionSize s.ctx f paramCount) _
    (enteredState code f paramCount s) hcode' (bytesOf (prologueOf s.ctx f paramCount)).length
    (Nat.le_refl _)
  have hactual : (code + BitVec.ofNat 64 (functionSize s.ctx f paramCount) - code).toNat =
      functionSize s.ctx f paramCount := by
    rw [BitVec.add_comm, BitVec.add_sub_cancel, BitVec.toNat_ofNat, Nat.mod_eq_of_lt hsize]
  have hcount : ¬ (0 + f.instructions.length ≠ f.totalCount) := by
    rw [htotal]
    omega
  unfold jitCompileFunction
  have hstart : resetState s = some (⟨⟩, ⟨s.ctx.fresh s.ctx.stackBase, s.mem⟩) := rfl
  rw [bind_of_some hstart, if_neg (by omega), modify_bind]
  refine (bind_of_some hprologue _).trans ?_
  rw [sizeChunks_eq]
  refine (bind_of_some hfirst _).trans ?_
  simp only [hcount, if_false]
  refine (bind_of_some (hreset _ hbase) _).trans ?_
  rw [fresh_after_passOne]
  refine (bind_of_some hprologue' _).trans ?_
  rw [writeChunks_eq]
  refine (bind_of_some hsecond _).trans ?_
  have hsize' : (bytesOf (prologueOf s.ctx f paramCount)).length +
      (s.ctx.entered f paramCount).sizeOfAll f.instructions =
      functionSize s.ctx f paramCount := rfl
  have hsize'' : (bytesOf (prologueOf s.ctx f paramCount)).length +
      (enteredState code f paramCount s).ctx.sizeOfAll f.instructions =
      functionSize s.ctx f paramCount := rfl
  simp only [hsize', hsize'', hactual, ne_eq, not_true, if_false]
  rw [get_bind]
  have hregistry := compiledState_registry code f paramCount s
  unfold compiledState at hregistry
  simp only [hregistry]
  unfold registeredState compiledState
  split
  · rfl
  · rfl

end TinyCompile.Jit
