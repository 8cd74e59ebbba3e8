import TinyCompile.Jit.Plan

set_option autoImplicit false

/-!
# Jit: the encoders follow the plan
-/

namespace TinyCompile.Jit

open TinyCompile.Machine TinyCompile.X86 TinyCompile.Source TinyCompile.Ir

/-- What an encoder returns and leaves behind, by the plan. -/
def planned (buf : Ptr) (inst : IRInstruction) (s : JITState) : Nat × JITState :=
  let pending := s.ctx.pendingCall
  let ctx := s.ctx.touchAll (touched pending inst)
  let a := emitItems buf (itemsOf ctx.vregMap pending inst) ⟨ctx, ⟨buf, 0, s.mem⟩⟩
  (a.out.size, ⟨{ a.ctx with pendingCall := pendingAfter pending inst }, a.out.mem⟩)

/-! ## The helpers -/

theorem loadLocationToReg_eq (dst : Reg) (loc : Location) :
    loadLocationToReg dst loc = emitBytes (bytesOf (loadCode dst loc)) := by
  funext o
  cases loc with
  | none => rfl
  | reg reg =>
    simp only [loadLocationToReg, loadCode]
    split
    · simp [emitMovRegReg_eq]
    · rfl
  | stack offset => simp [loadLocationToReg, loadCode, emitLoadParam_eq]
  | const imm => simp [loadLocationToReg, loadCode, emitMovImm_eq]

theorem storeRegToLocation_eq (loc : Location) (src : Reg) :
    storeRegToLocation loc src = emitBytes (bytesOf (storeCode src loc)) := by
  funext o
  cases loc with
  | none => rfl
  | reg reg =>
    simp only [storeRegToLocation, storeCode]
    split
    · simp [emitMovRegReg_eq]
    · rfl
  | stack offset => simp [storeRegToLocation, storeCode, emitStoreLocal_eq]
  | const imm => rfl

theorem loadBinaryOperands_fst (tmp : Reg) (left right : Location) :
    (loadBinaryOperands .rax tmp left right).1 =
      emitBytes (bytesOf (loadCode .rax left ++ (rightCode tmp right).1)) := by
  funext o
  cases right <;>
    simp [loadBinaryOperands, rightCode, loadLocationToReg_eq, emitBytes_append]

theorem loadBinaryOperands_snd (tmp : Reg) (left right : Location) :
    (loadBinaryOperands .rax tmp left right).2 = (rightCode tmp right).2 := by
  cases right <;> rfl

/-- Two locations in order, in terms of the context after both. -/
theorem getLocation_two {α : Type} {v w : Nat} (hv : v < maxVregsPerFunction)
    (hw : w < maxVregsPerFunction) (k : Location → Location → JitM α) (s : JITState) :
    (getLocation v >>= fun a => getLocation w >>= fun b => k a b) s =
      k ((s.ctx.touchAll [v, w]).vregMap v) ((s.ctx.touchAll [v, w]).vregMap w)
        { s with ctx := s.ctx.touchAll [v, w] } := by
  rw [getLocation_bind hv, getLocation_bind hw, JITContext.touchAll_cons,
    JITContext.touchAll_touched]
  rfl

/-- Three locations in order, in terms of the context after all. -/
theorem getLocation_three {α : Type} {v w x : Nat} (hv : v < maxVregsPerFunction)
    (hw : w < maxVregsPerFunction) (hx : x < maxVregsPerFunction)
    (k : Location → Location → Location → JitM α) (s : JITState) :
    (getLocation v >>= fun a => getLocation w >>= fun b => getLocation x >>= fun c => k a b c) s =
      k ((s.ctx.touchAll [v, w, x]).vregMap v) ((s.ctx.touchAll [v, w, x]).vregMap w)
        ((s.ctx.touchAll [v, w, x]).vregMap x) { s with ctx := s.ctx.touchAll [v, w, x] } := by
  have hfirst := s.ctx.touchAll_touched v [w, x]
  have hsecond := (s.ctx.touch v).touchAll_touched w [x]
  rw [getLocation_bind hv, getLocation_bind hw, getLocation_bind hx]
  simp only [JITContext.touchAll_cons, JITContext.touchAll_nil] at hfirst hsecond ⊢
  rw [hfirst, hsecond]

theorem get_bind {α : Type} (k : JITState → JitM α) (s : JITState) :
    (get >>= k) s = k s s := rfl

theorem set_bind {α : Type} (s' : JITState) (k : PUnit → JitM α) (s : JITState) :
    (set s' >>= k) s = k ⟨⟩ s' := rfl

theorem bind_of_some {α β : Type} {m : JitM α} {s s' : JITState} {a : α}
    (h : m s = some (a, s')) (k : α → JitM β) : (m >>= k) s = k a s' := by
  show (m s).bind _ = _
  rw [h]
  rfl

theorem withPending_self {ctx : JITContext} {pending : List Nat} (h : ctx.pendingCall = pending) :
    { ctx with pendingCall := pending } = ctx := by
  subst h
  rfl

/-- Emitting the code of a straight-line instruction is following the plan. -/
theorem emitFrom_planned {buf : Ptr} {inst : IRInstruction} {s : JITState} {e : Emitter}
    {es : List Encoded} (he : e = emitBytes (bytesOf es))
    (hitems : itemsOf (s.ctx.touchAll (touched s.ctx.pendingCall inst)).vregMap
      s.ctx.pendingCall inst = es.map .code)
    (hpending : pendingAfter s.ctx.pendingCall inst = s.ctx.pendingCall) :
    emitFrom buf e { s with ctx := s.ctx.touchAll (touched s.ctx.pendingCall inst) } =
      some (planned buf inst s) := by
  subst he
  simp only [planned, hitems, emitItems_code, hpending]
  rw [withPending_self (s.ctx.touchAll_pendingCall _)]
  rfl

/-- The virtual registers of an encoder are in the range of the map. -/
def InRange (vregs : List Nat) : Prop := ∀ v ∈ vregs, v < maxVregsPerFunction

/-! ## Straight-line instructions -/

section
variable {buf : Ptr} {inst : IRInstruction} {s : JITState}

/-- Encoders that ask for the destination and both sources. -/
theorem planned_of_three {e : Location → Location → Location → Emitter}
    {k : Location → Location → Location → List Encoded}
    (he : ∀ d l r, e d l r = emitBytes (bytesOf (k d l r)))
    (ht : touched s.ctx.pendingCall inst = [inst.dest, inst.src1, inst.src2])
    (hi : ∀ loc, itemsOf loc s.ctx.pendingCall inst =
      (k (loc inst.dest) (loc inst.src1) (loc inst.src2)).map .code)
    (hp : pendingAfter s.ctx.pendingCall inst = s.ctx.pendingCall)
    (hr : InRange (touched s.ctx.pendingCall inst)) :
    (getLocation inst.dest >>= fun d => getLocation inst.src1 >>= fun l =>
      getLocation inst.src2 >>= fun r => emitFrom buf (e d l r)) s =
      some (planned buf inst s) := by
  rw [ht] at hr
  rw [← emitFrom_planned (he _ _ _) (hi _) hp, ht,
    getLocation_three (hr _ (by simp)) (hr _ (by simp)) (hr _ (by simp))]

/-- Encoders that ask for the destination and the first source. -/
theorem planned_of_two {e : Location → Location → Emitter}
    {k : Location → Location → List Encoded}
    (he : ∀ d l, e d l = emitBytes (bytesOf (k d l)))
    (ht : touched s.ctx.pendingCall inst = [inst.dest, inst.src1])
    (hi : ∀ loc, itemsOf loc s.ctx.pendingCall inst =
      (k (loc inst.dest) (loc inst.src1)).map .code)
    (hp : pendingAfter s.ctx.pendingCall inst = s.ctx.pendingCall)
    (hr : InRange (touched s.ctx.pendingCall inst)) :
    (getLocation inst.dest >>= fun d => getLocation inst.src1 >>= fun l =>
      emitFrom buf (e d l)) s = some (planned buf inst s) := by
  rw [ht] at hr
  rw [← emitFrom_planned (he _ _) (hi _) hp, ht,
    getLocation_two (hr _ (by simp)) (hr _ (by simp))]

/-- Encoders that ask for one location. -/
theorem planned_of_one {v : Nat} {e : Location → Emitter} {k : Location → List Encoded}
    (he : ∀ l, e l = emitBytes (bytesOf (k l)))
    (ht : touched s.ctx.pendingCall inst = [v])
    (hi : ∀ loc, itemsOf loc s.ctx.pendingCall inst = (k (loc v)).map .code)
    (hp : pendingAfter s.ctx.pendingCall inst = s.ctx.pendingCall)
    (hr : InRange (touched s.ctx.pendingCall inst)) :
    (getLocation v >>= fun l => emitFrom buf (e l)) s = some (planned buf inst s) := by
  rw [ht] at hr
  rw [← emitFrom_planned (he _) (hi _) hp, ht, getLocation_bind (hr _ (by simp))]
  rfl

theorem emitStandardBinaryOp_eq (op : AluOp)
    (ht : touched s.ctx.pendingCall inst = [inst.dest, inst.src1, inst.src2])
    (hi : ∀ loc, itemsOf loc s.ctx.pendingCall inst =
      (binaryCode .rdx (fun r => [aluRegReg op .rax r]) (loc inst.dest) (loc inst.src1)
        (loc inst.src2)).map .code)
    (hp : pendingAfter s.ctx.pendingCall inst = s.ctx.pendingCall)
    (hr : InRange (touched s.ctx.pendingCall inst)) :
    emitStandardBinaryOp buf inst (aluOpcode op) s = some (planned buf inst s) := by
  refine planned_of_three ?_ ht hi hp hr
  intro d l r
  funext o
  simp [loadBinaryOperands_fst, loadBinaryOperands_snd, storeRegToLocation_eq, emitAlu_eq,
    binaryCode, emitBytes_append]

theorem emitComparisonOp_eq (c : Cond)
    (ht : touched s.ctx.pendingCall inst = [inst.dest, inst.src1, inst.src2])
    (hi : ∀ loc, itemsOf loc s.ctx.pendingCall inst =
      (binaryCode .rcx (compareOps c) (loc inst.dest) (loc inst.src1)
        (loc inst.src2)).map .code)
    (hp : pendingAfter s.ctx.pendingCall inst = s.ctx.pendingCall)
    (hr : InRange (touched s.ctx.pendingCall inst)) :
    emitComparisonOp buf inst c s = some (planned buf inst s) := by
  refine planned_of_three ?_ ht hi hp hr
  intro d l r
  funext o
  simp [loadBinaryOperands_fst, loadBinaryOperands_snd, storeRegToLocation_eq, emitCmp_eq,
    emitSetcc_eq, emitMovzx_eq, compareOps, binaryCode, emitBytes_append]

theorem emitShiftOp_eq (op : ShiftOp)
    (ht : touched s.ctx.pendingCall inst = [inst.dest, inst.src1, inst.src2])
    (hi : ∀ loc, itemsOf loc s.ctx.pendingCall inst =
      (shiftCode op (loc inst.dest) (loc inst.src1) (loc inst.src2)).map .code)
    (hp : pendingAfter s.ctx.pendingCall inst = s.ctx.pendingCall)
    (hr : InRange (touched s.ctx.pendingCall inst)) :
    emitShiftOp buf inst (shiftExtension op) s = some (planned buf inst s) := by
  refine planned_of_three ?_ ht hi hp hr
  intro d l r
  funext o
  simp [loadLocationToReg_eq, storeRegToLocation_eq, shiftCode, shiftRax, emitBytes_append,
    emitBytes_cons]

theorem encodeMul_eq (h : inst.opcode = .mul) (hr : InRange (touched s.ctx.pendingCall inst)) :
    encodeMul buf inst s = some (planned buf inst s) := by
  refine planned_of_three (k := binaryCode .rcx fun r => [imulRegReg .rax r]) ?_
    (by simp [touched, h]) (fun loc => by simp [itemsOf, straightCode, h])
    (by simp [pendingAfter, h]) hr
  intro d l r
  funext o
  simp [loadBinaryOperands_fst, loadBinaryOperands_snd, storeRegToLocation_eq, emitImulR64_eq,
    binaryCode, emitBytes_append]

theorem encodeDiv_eq (h : inst.opcode = .div) (hr : InRange (touched s.ctx.pendingCall inst)) :
    encodeDiv buf inst s = some (planned buf inst s) := by
  refine planned_of_three (k := divCode) ?_ (by simp [touched, h])
    (fun loc => by simp [itemsOf, straightCode, h]) (by simp [pendingAfter, h]) hr
  intro d l r
  funext o
  cases r <;>
    simp [loadLocationToReg_eq, storeRegToLocation_eq, divCode, rightCode, cqo, idiv,
      emitBytes_append, emitBytes_cons] <;>
    rfl

theorem encodeNeg_eq (h : inst.opcode = .neg) (hr : InRange (touched s.ctx.pendingCall inst)) :
    encodeNeg buf inst s = some (planned buf inst s) := by
  refine planned_of_two (k := unaryCode [negRax]) ?_ (by simp [touched, h])
    (fun loc => by simp [itemsOf, straightCode, h]) (by simp [pendingAfter, h]) hr
  intro d l
  funext o
  simp [loadLocationToReg_eq, storeRegToLocation_eq, unaryCode, negRax, emitBytes_append,
    emitBytes_cons]

theorem encodeNotBitwise_eq (h : inst.opcode = .bnot)
    (hr : InRange (touched s.ctx.pendingCall inst)) :
    encodeNotBitwise buf inst s = some (planned buf inst s) := by
  refine planned_of_two (k := unaryCode [notRax]) ?_ (by simp [touched, h])
    (fun loc => by simp [itemsOf, straightCode, h]) (by simp [pendingAfter, h]) hr
  intro d l
  funext o
  simp [loadLocationToReg_eq, storeRegToLocation_eq, unaryCode, notRax, emitBytes_append,
    emitBytes_cons]

theorem encodeNot_eq (h : inst.opcode = .not) (hr : InRange (touched s.ctx.pendingCall inst)) :
    encodeNot buf inst s = some (planned buf inst s) := by
  refine planned_of_two
    (k := unaryCode [cmpRaxZero, setcc .e .rax, movzxRegReg .rax .rax]) ?_
    (by simp [touched, h]) (fun loc => by simp [itemsOf, straightCode, h])
    (by simp [pendingAfter, h]) hr
  intro d l
  funext o
  simp [loadLocationToReg_eq, storeRegToLocation_eq, emitSetcc_eq, emitMovzx_eq, unaryCode,
    cmpRaxZero, emitBytes_append, emitBytes_cons]

/-- The early return of `encode_mov` emits nothing. -/
theorem movBetween_eq (d l : Location) : (match d, l with
      | .reg r, .reg r' =>
          if r = r' then return 0
          else
            emitFrom buf fun o => o |> loadLocationToReg .rax l |> storeRegToLocation d .rax
      | _, _ =>
          emitFrom buf fun o => o |> loadLocationToReg .rax l |> storeRegToLocation d .rax) =
        emitFrom buf (emitBytes (bytesOf (movCode d l))) := by
  have hmove : (fun o => o |> loadLocationToReg .rax l |> storeRegToLocation d .rax) =
      emitBytes (bytesOf (unaryCode [] d l)) := by
    funext o
    simp [loadLocationToReg_eq, storeRegToLocation_eq, unaryCode, emitBytes_append]
  rw [hmove]
  cases d <;> cases l <;> simp only [movCode]
  split
  · rfl
  · rfl

theorem encodeMov_eq (h : inst.opcode = .mov) (hr : InRange (touched s.ctx.pendingCall inst)) :
    encodeMov buf inst s = some (planned buf inst s) := by
  have hfun := @planned_of_two buf inst s
    (fun d l => emitBytes (bytesOf (movCode d l))) _ (fun _ _ => rfl) (by simp [touched, h])
    (fun loc => by simp [itemsOf, straightCode, h]) (by simp [pendingAfter, h]) hr
  rw [← hfun]
  refine congrFun ?_ s
  refine bind_congr fun d => bind_congr fun l => ?_
  exact movBetween_eq d l

theorem encodeConst_eq (h : inst.opcode = .const)
    (hr : InRange (touched s.ctx.pendingCall inst)) :
    encodeConst buf inst s = some (planned buf inst s) := by
  refine planned_of_one (k := fun d => movImm .rax inst.imm :: storeCode .rax d) ?_
    (by simp [touched, h]) (fun loc => by simp [itemsOf, straightCode, h])
    (by simp [pendingAfter, h]) hr
  intro d
  funext o
  simp [emitMovImm_eq, storeRegToLocation_eq, emitBytes_append]

theorem encodeRet_eq (h : inst.opcode = .ret) (hr : InRange (touched s.ctx.pendingCall inst)) :
    encodeRet buf inst s = some (planned buf inst s) := by
  refine planned_of_one (k := fun l => loadCode .rax l ++ epilogueCode) ?_
    (by simp [touched, h]) (fun loc => by simp [itemsOf, straightCode, h])
    (by simp [pendingAfter, h]) hr
  intro l
  funext o
  simp [loadLocationToReg_eq, emitPop_eq, epilogueCode, leaRspSaved, ret, emitBytes_append,
    emitBytes_cons, calleeSavedSize, calleeSavedCount]

theorem encodeStore_eq (h : inst.opcode = .store)
    (hr : InRange (touched s.ctx.pendingCall inst)) :
    encodeStore buf inst s = some (planned buf inst s) := by
  refine planned_of_one
    (k := fun l => storeLocalCode l (getLocalOffset inst.dest) (typeSize inst.type)) ?_
    (by simp [touched, h]) (fun loc => by simp [itemsOf, straightCode, h])
    (by simp [pendingAfter, h]) hr
  intro l
  funext o
  cases l <;>
    simp [loadLocationToReg_eq, emitStoreSized_eq, storeLocalCode, emitBytes_append]

theorem encodeLoad_eq (h : inst.opcode = .load)
    (hr : InRange (touched s.ctx.pendingCall inst)) :
    encodeLoad buf inst s = some (planned buf inst s) := by
  refine planned_of_one
    (k := fun d => loadLocalCode d (getLocalOffset inst.src1) (typeSize inst.type)) ?_
    (by simp [touched, h]) (fun loc => by simp [itemsOf, straightCode, h])
    (by simp [pendingAfter, h]) hr
  intro d
  funext o
  cases d <;>
    simp [storeRegToLocation_eq, emitLoadSignext_eq, loadLocalCode, emitBytes_append]

/-! ## Jumps and labels -/

/-- The byte count is only counted. -/
theorem emitBytes_from (bs : List Byte) (curr : Ptr) (size : Nat) (mem : Mem) :
    emitBytes bs ⟨curr, size, mem⟩ =
      { emitBytes bs ⟨curr, 0, mem⟩ with size := size + bs.length } := by
  induction bs generalizing curr size mem with
  | nil => rfl
  | cons b bs ih =>
    simp only [emitBytes_cons, emitU8, List.length_cons]
    split
    · rw [ih, ih _ 1]
      simp only [Out.mk.injEq, and_true, true_and]
      omega
    · rw [ih, ih _ 1]
      simp only [Out.mk.injEq, and_true, true_and]
      omega

theorem emitBytes_mem (bs : List Byte) (curr : Ptr) (n k : Nat) (mem : Mem) :
    (emitBytes bs ⟨curr, n, mem⟩).mem = (emitBytes bs ⟨curr, k, mem⟩).mem := by
  rw [emitBytes_from bs curr n, emitBytes_from bs curr k]

/-- The last opcode byte of a jump, by which `emit_jump` tells the jumps apart. -/
def jumpByte : Option Cond → Byte
  | none => OP_JMP_REL32
  | some c => 0x80 ||| conditionCode c

theorem emitJump_opcode (c : Option Cond) (o : Out) :
    (if jumpByte c = OP_JMP_REL32 then emitU8 OP_JMP_REL32 o
      else o |> emitU8 OP_PREFIX_0F |> emitU8 (jumpByte c)) = emitBytes (jumpOpcode c) o := by
  cases c with
  | none => rfl
  | some c =>
    have hne : jumpByte (some c) ≠ OP_JMP_REL32 := by cases c <;> decide
    rw [if_neg hne]
    rfl

theorem emitJump_eq (l : Nat) (c : Option Cond) (b : Ptr) (n : Nat) :
    ∃ size, emitJump buf l (jumpByte c) s =
        some (size, ⟨(emitItem b (.jump c l) ⟨s.ctx, ⟨buf, n, s.mem⟩⟩).ctx,
          (emitItem b (.jump c l) ⟨s.ctx, ⟨buf, n, s.mem⟩⟩).out.mem⟩) ∧
      (emitItem b (.jump c l) ⟨s.ctx, ⟨buf, n, s.mem⟩⟩).out.size = n + size := by
  have hsize : (emitItem b (.jump c l) ⟨s.ctx, ⟨buf, n, s.mem⟩⟩).out.size =
      n + ((jumpOpcode c).length + 4) := emitItem_size b (.jump c l) ⟨s.ctx, ⟨buf, n, s.mem⟩⟩
  refine ⟨(jumpOpcode c).length + 4, ?_, hsize⟩
  have hjump : emitJump buf l (jumpByte c) s = (do
      let o := emitBytes (jumpOpcode c) ⟨buf, 0, s.mem⟩
      if buf = 0 then return o.size + 4
      if l < maxLabels && s.ctx.labelDefined l then
        let o' := emitU32 (relTo o.curr (s.ctx.labelOffset l)) o
        set { s with mem := o'.mem }
        return o'.size
      else
        let p : Patch := ⟨l, o.curr⟩
        let o' := emitU32 0 o
        set ({ ctx := { s.ctx with patches := p :: s.ctx.patches }, mem := o'.mem } : JITState)
        return o'.size : JitM Nat) s := by
    rw [← emitJump_opcode]
    rfl
  -- the count of the source starts at zero
  have hzero : (emitBytes (jumpOpcode c) ⟨buf, 0, s.mem⟩).size = (jumpOpcode c).length := by
    simp [emitBytes_size]
  rw [hjump]
  by_cases hbuf : buf = 0
  · subst hbuf
    simp only [emitItem, emitBytes_null, if_true, Nat.zero_add]
    rfl
  · simp only [emitItem, emitBytes_from (jumpOpcode c) buf n, emitU32_eq, if_neg hbuf]
    generalize emitBytes (jumpOpcode c) ⟨buf, 0, s.mem⟩ = o at hzero
    obtain ⟨curr, size, mem⟩ := o
    subst hzero
    split
    · refine congrArg some (Prod.ext ?_ ?_)
      · exact (emitBytes_size _ _).trans (by simp)
      · exact congrArg (JITState.mk s.ctx) (emitBytes_mem _ _ _ _ _)
    · refine congrArg some (Prod.ext ?_ ?_)
      · exact (emitBytes_size _ _).trans (by simp)
      · exact congrArg (JITState.mk _) (emitBytes_mem _ _ _ _ _)

/-- A jump that stands alone. -/
theorem encodeJmp_eq (h : inst.opcode = .jmp) :
    encodeJmp buf inst s = some (planned buf inst s) := by
  obtain ⟨size, hjump, hsize⟩ := @emitJump_eq buf s inst.labelId none buf 0
  have hplan : planned buf inst s = (size, ⟨(emitItem buf (.jump none inst.labelId)
      ⟨s.ctx, ⟨buf, 0, s.mem⟩⟩).ctx, (emitItem buf (.jump none inst.labelId)
      ⟨s.ctx, ⟨buf, 0, s.mem⟩⟩).out.mem⟩) := by
    simp only [planned, touched, itemsOf, pendingAfter, h, JITContext.touchAll_nil,
      emitItems_cons, emitItems_nil, hsize, Nat.zero_add]
    rw [withPending_self]
    exact emitItem_pending _ _ _
  rw [hplan]
  exact hjump

theorem cmpRaxZero_emit (o : Out) :
    (o |> emitU8 REX_W |> emitU8 ALU_IMM8
      |> emitU8 (MOD_REG ||| (EXT_CMP <<< 3) ||| Reg.rax.code) |> emitU8 0x00) =
      emitBytes cmpRaxZero.bytes o := by
  simp only [cmpRaxZero, emitBytes_cons, emitBytes_nil]

theorem emitJzJnz_eq (l : Location) : emitJzJnz l = emitBytes (bytesOf (testCode l)) := by
  funext o
  have hload : ∀ l : Location, emitBytes cmpRaxZero.bytes (loadLocationToReg .rax l o) =
      emitBytes (bytesOf (loadCode .rax l ++ [cmpRaxZero])) o := by
    intro l
    simp [loadLocationToReg_eq, emitBytes_append]
  cases l with
  | reg reg => simp only [testCode, bytesOf_cons, bytesOf_nil, List.append_nil, ← emitTest_eq]; rfl
  | none => exact (cmpRaxZero_emit _).trans (hload _)
  | stack offset => exact (cmpRaxZero_emit _).trans (hload _)
  | const imm => exact (cmpRaxZero_emit _).trans (hload _)

/-- A test followed by a conditional jump. -/
theorem encodeBranch_eq {c : Cond} (h : (inst.opcode = .jz ∧ c = .e) ∨
      (inst.opcode = .jnz ∧ c = .ne)) (hr : InRange (touched s.ctx.pendingCall inst)) :
    encodeBranch buf inst s = some (planned buf inst s) := by
  have ht : touched s.ctx.pendingCall inst = [inst.src1] := by
    rcases h with ⟨h, _⟩ | ⟨h, _⟩ <;> simp [touched, h]
  have hi : ∀ loc, itemsOf loc s.ctx.pendingCall inst =
      (testCode (loc inst.src1)).map .code ++ [.jump (some c) inst.labelId] := by
    rcases h with ⟨h, rfl⟩ | ⟨h, rfl⟩ <;> simp [itemsOf, h]
  have hp : pendingAfter s.ctx.pendingCall inst = s.ctx.pendingCall := by
    rcases h with ⟨h, _⟩ | ⟨h, _⟩ <;> simp [pendingAfter, h]
  have hbyte : (0x80#8 ||| (if inst.opcode = .jz then conditionCode .e else conditionCode .ne)) =
      jumpByte (some c) := by
    rcases h with ⟨h, rfl⟩ | ⟨h, rfl⟩ <;> simp [h, jumpByte]
  rw [ht] at hr
  unfold encodeBranch
  rw [getLocation_bind (hr _ (by simp))]
  simp only [hbyte, emitJzJnz_eq, planned, ht, hi, hp, JITContext.touchAll_cons,
    JITContext.touchAll_nil, emitItems_append, emitItems_code, emitItems_cons, emitItems_nil]
  have hkept : (s.ctx.touch inst.src1).pendingCall = s.ctx.pendingCall := rfl
  revert hkept
  generalize s.ctx.touch inst.src1 = ctx
  intro hkept
  obtain ⟨size, hjump, hsize⟩ := @emitJump_eq
    (emitBytes (bytesOf (testCode (ctx.vregMap inst.src1))) ⟨buf, 0, s.mem⟩).curr
    (⟨ctx, (emitBytes (bytesOf (testCode (ctx.vregMap inst.src1))) ⟨buf, 0, s.mem⟩).mem⟩)
    inst.labelId (some c) buf
    (emitBytes (bytesOf (testCode (ctx.vregMap inst.src1))) ⟨buf, 0, s.mem⟩).size
  rw [withPending_self ((emitItem_pending _ _ _).trans hkept), hsize]
  rw [get_bind, set_bind]
  exact bind_of_some hjump _

/-- A label. -/
theorem encodeLabel_eq (h : inst.opcode = .label) :
    encodeLabel buf inst s = some (planned buf inst s) := by
  have hsize : (emitItem buf (.label inst.labelId) ⟨s.ctx, ⟨buf, 0, s.mem⟩⟩).out.size = 0 :=
    emitItem_size _ _ _
  simp only [planned, touched, itemsOf, pendingAfter, h, JITContext.touchAll_nil, emitItems_cons,
    emitItems_nil, hsize]
  rw [withPending_self (emitItem_pending _ _ _)]
  simp only [emitItem]
  unfold encodeLabel
  by_cases hid : inst.labelId ≥ maxLabels
  · simp only [hid, true_or, if_true]
    rfl
  · by_cases hbuf : buf = 0
    · simp only [hid, hbuf, or_true, if_false, if_true]
      rfl
    · simp only [hid, hbuf, or_self, if_false, ne_eq, not_false_eq_true, if_true]
      rfl

/-- An argument becomes pending. -/
theorem encodeArg_eq (h : inst.opcode = .arg)
    (hroom : s.ctx.pendingCall.length < maxParamsPerFunction) :
    encodeArg inst s = some (planned buf inst s) := by
  have hnot : ¬ s.ctx.pendingCall.length ≥ maxParamsPerFunction := by omega
  simp only [planned, touched, itemsOf, pendingAfter, h, JITContext.touchAll_nil, emitItems_nil]
  unfold encodeArg
  simp only [bind, StateT.bind, get, getThe, MonadStateOf.get, StateT.get, Option.bind, pure,
    hnot, if_false]
  rfl

end

/-! ## Calls -/

/-- Locations that are assigned do not change while further ones are asked for. -/
theorem flatMap_touched {k : Location → List Encoded} {ctx : JITContext} {vs : List Nat}
    (ws : List Nat) (h : ∀ v ∈ vs, ctx.vregMap v ≠ .none) :
    vs.flatMap (fun v => k ((ctx.touchAll ws).vregMap v)) =
      vs.flatMap (fun v => k (ctx.vregMap v)) := by
  induction vs with
  | nil => rfl
  | cons v vs ih =>
    simp only [List.flatMap_cons]
    rw [ctx.touchAll_assigned ws (h v (by simp)), ih (fun w hw => h w (by simp [hw]))]

theorem pushStackArgs_eq (vs : List Nat) (o : Out) (s : JITState) (hr : InRange vs) :
    pushStackArgs vs o s =
      some (emitBytes (bytesOf (vs.flatMap fun v =>
        pushStackArg ((s.ctx.touchAll vs).vregMap v))) o,
        { s with ctx := s.ctx.touchAll vs }) := by
  induction vs generalizing o s with
  | nil => rfl
  | cons v vs ih =>
    have hv : v < maxVregsPerFunction := hr v (by simp)
    rw [pushStackArgs, getLocation_bind hv, ih _ _ (fun w hw => hr w (by simp [hw]))]
    simp [loadLocationToReg_eq, emitPush_eq, pushStackArg, emitBytes_append,
      JITContext.touchAll_touched]

theorem pushRegArgs_eq (vs : List Nat) (o : Out) (s : JITState) (hr : InRange vs) :
    pushRegArgs vs o s =
      some (emitBytes (bytesOf (vs.flatMap fun v =>
        pushRegArg ((s.ctx.touchAll vs).vregMap v))) o,
        { s with ctx := s.ctx.touchAll vs }) := by
  induction vs generalizing o s with
  | nil => rfl
  | cons v vs ih =>
    have hv : v < maxVregsPerFunction := hr v (by simp)
    have hrest : InRange vs := fun w hw => hr w (by simp [hw])
    rw [pushRegArgs, getLocation_bind hv]
    simp only [List.flatMap_cons, bytesOf_append, JITContext.touchAll_cons,
      JITContext.touchAll_touched, emitBytes_append]
    cases (s.ctx.touch v).vregMap v <;>
      simp [ih _ _ hrest, pushRegArg, loadLocationToReg_eq, emitPush_eq, emitBytes_append]

theorem popRegArgs_eq (regs : List Reg) (o : Out) :
    popRegArgs regs o = emitBytes (bytesOf (regs.map pop)) o := by
  induction regs generalizing o with
  | nil => rfl
  | cons r regs ih => rw [popRegArgs, ih]; simp [emitPop_eq, emitBytes_append]

theorem emitRspImm_sub (imm : BitVec 32) (o : Out) :
    emitRspImm EXT_SUB imm o = emitBytes (subRsp imm).bytes o := by
  simp [emitRspImm, subRsp, rspImmBytes, emitU32_eq, emitBytes_cons]

theorem emitRspImm_add (imm : BitVec 32) (o : Out) :
    emitRspImm EXT_ADD imm o = emitBytes (addRsp imm).bytes o := by
  simp [emitRspImm, addRsp, rspImmBytes, emitU32_eq, emitBytes_cons]

theorem recordCallSite_bind {α : Type} (buf patchLocation : Ptr) (name : StringView)
    (k : JitM α) (s : JITState) :
    (recordCallSite buf patchLocation name >>= fun _ => k) s =
      k { s with ctx := { s.ctx with callSites :=
        if buf ≠ 0 ∧ s.ctx.callSites.length < s.ctx.callSiteCapacity then
          s.ctx.callSites ++ [⟨patchLocation, name⟩]
        else s.ctx.callSites } } := by
  unfold recordCallSite
  by_cases hbuf : buf = 0
  · simp only [hbuf, ne_eq, not_true, false_and, if_false]
    rfl
  · simp only [hbuf, ne_eq, not_false_eq_true, true_and, if_true]
    by_cases hroom : s.ctx.callSites.length < s.ctx.callSiteCapacity
    · simp only [hroom, if_true]
      show (((get >>= _) : JitM PUnit) >>= _) s = _
      rw [bind_assoc, get_bind]
      simp only [hroom, if_true]
      rfl
    · simp only [hroom, if_false]
      show (((get >>= _) : JitM PUnit) >>= _) s = _
      rw [bind_assoc, get_bind]
      simp only [hroom, if_false]
      rfl

theorem padCode_emit (pending : List Nat) (o : Out) :
    (if (stackArgCount pending % 2 != 0) = true then emitRspImm EXT_SUB 8#32 o else o) =
      emitBytes (bytesOf (padCode pending)) o := by
  unfold padCode
  by_cases h : stackArgCount pending % 2 = 0 <;> simp [h, emitRspImm_sub]

theorem cleanup_emit (pending : List Nat) (o : Out) :
    (if (decide (stackArgCount pending > 0) || (stackArgCount pending % 2 != 0)) = true then
        emitRspImm EXT_ADD (BitVec.ofNat 32 (stackArgCount pending * 8 +
          (if (stackArgCount pending % 2 != 0) = true then 8 else 0))) o
      else o) =
      emitBytes (bytesOf (if stackArgCount pending > 0 then
        [addRsp (BitVec.ofNat 32 (cleanupSize pending))] else [])) o := by
  have hsize : stackArgCount pending * 8 +
      (if (stackArgCount pending % 2 != 0) = true then 8 else 0) = cleanupSize pending := by
    unfold cleanupSize
    rcases Nat.mod_two_eq_zero_or_one (stackArgCount pending) with h | h
    · simp [h, Nat.mul_comm]
    · simp [h, Nat.mul_add, Nat.mul_comm]
  rw [hsize]
  by_cases h : stackArgCount pending > 0
  · simp [h, emitRspImm_add]
  · have hzero : stackArgCount pending = 0 := by omega
    simp [hzero]

/-- The call sequence. -/
theorem encodeCall_eq {buf : Ptr} {inst : IRInstruction} {s : JITState} (h : inst.opcode = .call)
    (hr : InRange (touched s.ctx.pendingCall inst)) :
    encodeCall buf inst s = some (planned buf inst s) := by
  have ht : touched s.ctx.pendingCall inst = inst.dest ::
      ((s.ctx.pendingCall.drop 6).reverse ++ (s.ctx.pendingCall.take 6).reverse) := by
    simp [touched, h]
  rw [ht] at hr
  have hstack : InRange (s.ctx.pendingCall.drop 6).reverse := fun v hv => hr v (by simp_all)
  have hreg : InRange (s.ctx.pendingCall.take 6).reverse := fun v hv => hr v (by simp_all)
  have hcount : (if s.ctx.pendingCall.length > sysVMaxRegArgs then
      s.ctx.pendingCall.length - sysVMaxRegArgs else 0) = stackArgCount s.ctx.pendingCall := by
    unfold stackArgCount
    split <;> omega
  have hregs : (if s.ctx.pendingCall.length > sysVMaxRegArgs then sysVMaxRegArgs
      else s.ctx.pendingCall.length) = (s.ctx.pendingCall.take 6).length := by
    rw [List.length_take]
    by_cases hlen : s.ctx.pendingCall.length > sysVMaxRegArgs
    · rw [if_pos hlen]
      unfold sysVMaxRegArgs at *
      omega
    · rw [if_neg hlen]
      unfold sysVMaxRegArgs at *
      omega
  have htake : s.ctx.pendingCall.take (s.ctx.pendingCall.take 6).length =
      s.ctx.pendingCall.take 6 := by
    simp [List.take_eq_take_iff]
  unfold encodeCall
  rw [getLocation_bind (hr _ (by simp)), get_bind]
  simp only [show (s.ctx.touch inst.dest).pendingCall = s.ctx.pendingCall from rfl, hcount, hregs,
    htake, stackAlignment, Nat.reduceDiv]
  rw [padCode_emit, bind_of_some (pushStackArgs_eq _ _ _ hstack),
    bind_of_some (pushRegArgs_eq _ _ _ hreg)]
  simp only [cleanup_emit]
  rw [recordCallSite_bind]
  -- both sides in terms of the context after all locations are known
  have hctx : s.ctx.touchAll (touched s.ctx.pendingCall inst) =
      ((s.ctx.touch inst.dest).touchAll (s.ctx.pendingCall.drop 6).reverse).touchAll
        (s.ctx.pendingCall.take 6).reverse := by
    rw [ht, JITContext.touchAll_cons, JITContext.touchAll_append]
  have hdest := (s.ctx.touch inst.dest).touchAll_assigned
    ((s.ctx.pendingCall.drop 6).reverse ++ (s.ctx.pendingCall.take 6).reverse)
    (s.ctx.touch_ne_none inst.dest)
  rw [JITContext.touchAll_append] at hdest
  have hpushes := flatMap_touched (k := pushStackArg) (s.ctx.pendingCall.take 6).reverse
    (fun v hv => (s.ctx.touch inst.dest).touchAll_ne_none
      (s.ctx.pendingCall.drop 6).reverse hv)
  rw [← hdest, ← hpushes]
  simp only [planned, hctx, itemsOf, pendingAfter, h]
  generalize ((s.ctx.touch inst.dest).touchAll (s.ctx.pendingCall.drop 6).reverse).touchAll
    (s.ctx.pendingCall.take 6).reverse = final
  have hargs : emitBytes (bytesOf (argumentCode final.vregMap s.ctx.pendingCall))
      ⟨buf, 0, s.mem⟩ =
      popRegArgs (argRegisters.take (s.ctx.pendingCall.take 6).length)
        (emitBytes (bytesOf ((s.ctx.pendingCall.take 6).reverse.flatMap fun v =>
          pushRegArg (final.vregMap v)))
        (emitBytes (bytesOf ((s.ctx.pendingCall.drop 6).reverse.flatMap fun v =>
          pushStackArg (final.vregMap v)))
        (emitBytes (bytesOf (padCode s.ctx.pendingCall)) ⟨buf, 0, s.mem⟩))) := by
    simp only [argumentCode, bytesOf_append, emitBytes_append, popRegArgs_eq]
  rw [← hargs, emitItems_append, emitItems_code, emitItems_cons, emitItems_code]
  generalize emitBytes (bytesOf (argumentCode final.vregMap s.ctx.pendingCall))
    ⟨buf, 0, s.mem⟩ = o
  have hafter : ∀ o : Out, emitBytes (bytesOf (callRax ::
      cleanupCode s.ctx.pendingCall (final.vregMap inst.dest))) o =
      storeRegToLocation (final.vregMap inst.dest) .rax
        (emitBytes (bytesOf (if stackArgCount s.ctx.pendingCall > 0 then
            [addRsp (BitVec.ofNat 32 (cleanupSize s.ctx.pendingCall))] else []))
          (o |> emitU8 OP_CALL_IND
            |> emitU8 (MOD_REG ||| (EXT_CALL <<< 3) ||| Reg.rax.code))) := by
    intro o
    simp only [bytesOf_cons, cleanupCode, bytesOf_append, emitBytes_append,
      storeRegToLocation_eq, callRax, emitBytes_cons, emitBytes_nil]
  have hopcode : (o |> emitU8 REX_W |> emitU8 (MOV_IMM_R + Reg.rax.code)) =
      emitBytes callSiteOpcode o := by
    simp only [callSiteOpcode, emitBytes_cons, emitBytes_nil]
  rw [hafter, emitU64_eq]
  simp only [hopcode, emitItem]
  generalize emitBytes callSiteOpcode o = o
  generalize storeRegToLocation (final.vregMap inst.dest) .rax _ = o'
  rfl

/-! ## All instructions -/

/-- What an instruction needs of the arrays: its virtual registers are in range, and
there is room for one more argument. -/
structure Encodable (pending : List Nat) (inst : IRInstruction) : Prop where
  vregs : InRange (touched pending inst)
  room : inst.opcode = .arg → pending.length < maxParamsPerFunction

/-- Every encoder follows the plan, with a buffer and without. -/
theorem encodeInst_eq {buf : Ptr} {inst : IRInstruction} {s : JITState}
    (h : Encodable s.ctx.pendingCall inst) :
    encodeInst buf inst s = some (planned buf inst s) := by
  obtain ⟨hr, hroom⟩ := h
  unfold encodeInst
  cases hop : inst.opcode with
  | add =>
    exact emitStandardBinaryOp_eq .add (by simp [touched, hop])
      (fun loc => by simp [itemsOf, straightCode, hop]) (by simp [pendingAfter, hop]) hr
  | sub =>
    exact emitStandardBinaryOp_eq .sub (by simp [touched, hop])
      (fun loc => by simp [itemsOf, straightCode, hop]) (by simp [pendingAfter, hop]) hr
  | band =>
    exact emitStandardBinaryOp_eq .and (by simp [touched, hop])
      (fun loc => by simp [itemsOf, straightCode, hop]) (by simp [pendingAfter, hop]) hr
  | bor =>
    exact emitStandardBinaryOp_eq .or (by simp [touched, hop])
      (fun loc => by simp [itemsOf, straightCode, hop]) (by simp [pendingAfter, hop]) hr
  | bxor =>
    exact emitStandardBinaryOp_eq .xor (by simp [touched, hop])
      (fun loc => by simp [itemsOf, straightCode, hop]) (by simp [pendingAfter, hop]) hr
  | eq | neq | lt | le | gt | ge =>
    exact emitComparisonOp_eq (cmpCondition inst.opcode) (by simp [touched, hop])
      (fun loc => by simp [itemsOf, straightCode, hop]) (by simp [pendingAfter, hop]) hr
  | lshift =>
    exact emitShiftOp_eq .shl (by simp [touched, hop])
      (fun loc => by simp [itemsOf, straightCode, hop]) (by simp [pendingAfter, hop]) hr
  | rshift =>
    exact emitShiftOp_eq .sar (by simp [touched, hop])
      (fun loc => by simp [itemsOf, straightCode, hop]) (by simp [pendingAfter, hop]) hr
  | urshift =>
    exact emitShiftOp_eq .shr (by simp [touched, hop])
      (fun loc => by simp [itemsOf, straightCode, hop]) (by simp [pendingAfter, hop]) hr
  | mul => exact encodeMul_eq hop hr
  | div => exact encodeDiv_eq hop hr
  | neg => exact encodeNeg_eq hop hr
  | bnot => exact encodeNotBitwise_eq hop hr
  | not => exact encodeNot_eq hop hr
  | mov => exact encodeMov_eq hop hr
  | load => exact encodeLoad_eq hop hr
  | store => exact encodeStore_eq hop hr
  | const => exact encodeConst_eq hop hr
  | arg => exact encodeArg_eq hop (hroom hop)
  | label => exact encodeLabel_eq hop
  | jmp => exact encodeJmp_eq hop
  | jz => exact encodeBranch_eq (.inl ⟨hop, rfl⟩) hr
  | jnz => exact encodeBranch_eq (.inr ⟨hop, rfl⟩) hr
  | call => exact encodeCall_eq hop hr
  | ret => exact encodeRet_eq hop hr

end TinyCompile.Jit
