import TinyCompile.Jit.Sizes

set_option autoImplicit false

/-!
# Jit: generated functions compile

A function that `ir_gen` returns without an error can be encoded, and the two
passes of `jit_compile_function` agree on it.
-/

namespace TinyCompile.Jit

open TinyCompile.Machine TinyCompile.X86 TinyCompile.Source TinyCompile.Ir

/-! ## Generated code is encodable -/

theorem mem_touched {pending : List Nat} {inst : IRInstruction} {v : Nat}
    (h : v ∈ touched pending inst) :
    v ∈ inst.uses ∨ inst.defines = some v ∨ v ∈ pending := by
  unfold touched at h
  cases hop : inst.opcode <;> rw [hop] at h <;>
    simp only [List.mem_cons, List.mem_append, List.mem_reverse, List.not_mem_nil,
      or_false] at h <;>
    simp only [IRInstruction.uses, IRInstruction.defines, hop, List.mem_cons, List.not_mem_nil,
      Option.some.injEq, or_false, false_or]
  case call =>
    rcases h with h | h | h
    · exact .inl h.symm
    · exact .inr (List.mem_of_mem_drop h)
    · exact .inr (List.mem_of_mem_take h)
  all_goals first
    | exact .inl h
    | exact .inl h.symm
    | exact h.elim (fun h => .inr (.inl h.symm)) .inl

/-- Every virtual register of an instruction is in the range of the map. -/
def VregsBelow (limit : Nat) (inst : IRInstruction) : Prop :=
  (∀ v ∈ inst.uses, v < limit) ∧ ∀ v, inst.defines = some v → v < limit

theorem codeEncodable_of_scan {pending : List Nat} {code : List IRInstruction} {k j : Nat}
    (hscan : argScan k code = some j) (hlen : pending.length = k)
    (hk : k ≤ maxParamsPerFunction) (hfit : ArgsFit code)
    (hv : ∀ inst ∈ code, VregsBelow maxVregsPerFunction inst) (hp : InRange pending) :
    CodeEncodable pending code := by
  have hlimit : maxParamsPerFunction = 32 := rfl
  induction code generalizing pending k with
  | nil => trivial
  | cons inst rest ih =>
    have hvinst := hv inst (by simp)
    have hrange : InRange (touched pending inst) := by
      intro v hmem
      rcases mem_touched hmem with h | h | h
      · exact hvinst.1 v h
      · exact hvinst.2 v h
      · exact hp v h
    have hfit' : ArgsFit rest := fun i hi => hfit i (by simp [hi])
    have hv' : ∀ i ∈ rest, VregsBelow maxVregsPerFunction i := fun i hi => hv i (by simp [hi])
    cases hop : inst.opcode with
    | arg =>
      have himm := hfit inst (by simp) hop
      simp only [argScan, hop] at hscan
      split at hscan
      · rename_i heq
        rw [heq, BitVec.toNat_ofNat] at himm
        have hlt : k < maxParamsPerFunction := by omega
        refine ⟨⟨hrange, fun _ => by omega⟩, ?_⟩
        have hafter : pendingAfter pending inst = pending ++ [inst.src1] := by
          simp [pendingAfter, hop]
        rw [hafter]
        refine ih hscan (by simp [hlen]) hlt hfit' hv' ?_
        intro v hmem
        rcases List.mem_append.mp hmem with h | h
        · exact hp v h
        · refine hvinst.1 v ?_
          simpa [IRInstruction.uses, hop] using h
      · cases hscan
    | call =>
      simp only [argScan, hop] at hscan
      have hafter : pendingAfter pending inst = [] := by simp [pendingAfter, hop]
      refine ⟨⟨hrange, fun h => absurd h (by simp [hop])⟩, ?_⟩
      rw [hafter]
      exact ih hscan rfl (Nat.zero_le _) hfit' hv' fun v h => by cases h
    | _ =>
      simp only [argScan, hop] at hscan
      split at hscan
      · rename_i hzero
        have hafter : pendingAfter pending inst = pending := by simp [pendingAfter, hop]
        refine ⟨⟨hrange, fun h => absurd h (by simp [hop])⟩, ?_⟩
        rw [hafter]
        exact ih hscan (by omega) (Nat.zero_le _) hfit' hv' hp
      · cases hscan

theorem wellFormed_vregsBelow {p : Nat} {f : IRFunction} (h : f.WellFormed p) :
    ∀ inst ∈ f.instructions, VregsBelow maxVregsPerFunction inst := by
  have hparams := h.piece.params
  have hle := h.piece.le
  have hlimit := h.vregs
  intro inst hi
  refine ⟨fun v hv => ?_, fun v hv => ?_⟩
  · have := h.piece.uses inst hi v hv
    omega
  · have := h.piece.defines inst hi v hv
    omega

theorem wellFormed_encodable {p : Nat} {f : IRFunction} (h : f.WellFormed p) :
    CodeEncodable [] f.instructions :=
  codeEncodable_of_scan h.piece.args rfl (Nat.zero_le _) h.argsFit (wellFormed_vregsBelow h)
    fun v hv => by cases hv

/-! ## The size of a function -/

/-- No more than `MAX_PARAMS_PER_FUNCTION` arguments are ever pending. -/
theorem CodeEncodable.pending_le {pending : List Nat} {pre post : List IRInstruction}
    (h : CodeEncodable pending (pre ++ post)) (hle : pending.length ≤ maxParamsPerFunction) :
    (pendingAt pending pre).length ≤ maxParamsPerFunction := by
  induction pre generalizing pending with
  | nil => exact hle
  | cons inst pre ih =>
    refine ih h.2 ?_
    have hroom := h.1.room
    cases hop : inst.opcode with
    | arg =>
      have := hroom hop
      simp only [pendingAfter, hop, List.length_append, List.length_singleton]
      omega
    | call => simp [pendingAfter, hop]
    | _ => simpa [pendingAfter, hop] using hle

theorem JITContext.sizeOfAll_le {ctx : JITContext} {insts : List IRInstruction}
    (h : CodeEncodable ctx.pendingCall insts)
    (hle : ctx.pendingCall.length ≤ maxParamsPerFunction) :
    ctx.sizeOfAll insts ≤ 1200 * insts.length := by
  induction insts generalizing ctx with
  | nil => simp [JITContext.sizeOfAll]
  | cons inst rest ih =>
    have hinst : ctx.sizeOf inst ≤ 15 * 80 :=
      (itemsOf_short _ inst hle).size
    have hpending := @CodeEncodable.pending_le _ [inst] _ h hle
    have := @ih (ctx.after inst) h.2 hpending
    simp only [JITContext.sizeOfAll, List.length_cons]
    omega

theorem bytesOf_length_le {n : Nat} {es : List Encoded} (h : Short n es) :
    (bytesOf es).length ≤ 15 * n := by
  have hsize := h.items.size
  have hsame : itemsSize (es.map .code) = (bytesOf es).length := by
    clear h hsize
    induction es with
    | nil => rfl
    | cons e es ih => simp [Item.size, ih]
  omega

/-- What keeps `jit_compile_function` inside its arrays. -/
structure Compilable (p : Nat) (f : IRFunction) : Prop where
  labels : f.labelCount < maxLabels
  params : p < maxVregsPerFunction
  total : f.totalCount = f.instructions.length
  code : CodeEncodable [] f.instructions

theorem wellFormed_compilable {p : Nat} {f : IRFunction} (h : f.WellFormed p)
    (hlabels : f.labelCount < maxLabels) : Compilable p f where
  labels := hlabels
  params := Nat.lt_of_lt_of_le h.piece.params (Nat.le_trans h.piece.le h.vregs)
  total := h.total
  code := wellFormed_encodable h

theorem functionSize_le {p : Nat} {f : IRFunction} (h : Compilable p f)
    (hlimit : f.instructions.length < maxIrInstructionsPerFunction) (ctx : JITContext) :
    functionSize ctx f p < 2 ^ 28 := by
  have hpending : (ctx.entered f p).pendingCall = [] := JITContext.touchAll_pendingCall _ _
  have hcode : CodeEncodable (ctx.entered f p).pendingCall f.instructions := by
    rw [hpending]
    exact h.code
  have hbody := JITContext.sizeOfAll_le hcode (by rw [hpending]; exact Nat.zero_le _)
  have hprologue := bytesOf_length_le
    (prologueCode_short (ctx.entered f p).vregMap (calculateAlignedStackSize f) p)
  have hlimit' : f.instructions.length < 65536 := hlimit
  have hparams : p < 65536 := h.params
  unfold functionSize prologueOf
  omega

/-! ## The passes agree -/

/-- The first pass up to behind the instructions `pre`: the predicted size so far. -/
def passOne (f : IRFunction) (paramCount : Nat) (pre : List IRInstruction) : JitM Nat := do
  resetState
  modify fun s => { s with ctx := { s.ctx with stackBase := f.stackCount } }
  let prologue ← encodePrologue 0 (calculateAlignedStackSize f) paramCount
  let (size, _) ← sizeInsts pre (prologue, 0)
  return size

/-- The second pass up to behind the instructions `pre`: the write pointer. -/
def passTwo (f : IRFunction) (paramCount : Nat) (code : Ptr) (predictedSize : Nat)
    (pre : List IRInstruction) : JitM (Option Ptr) := do
  resetState
  modify fun s => { s with ctx := { s.ctx with stackBase := f.stackCount } }
  let prologue ← encodePrologue code (calculateAlignedStackSize f) paramCount
  writeInsts code predictedSize pre (code + BitVec.ofNat 64 prologue)

section

variable {f : IRFunction} {p : Nat}

theorem passOne_eq (h : Compilable p f) {pre post : List IRInstruction}
    (hsplit : f.instructions = pre ++ post) (s : JITState) :
    passOne f p pre s =
      some ((bytesOf (prologueOf s.ctx f p)).length + (s.ctx.entered f p).sizeOfAll pre,
        ⟨(s.ctx.entered f p).afterAll pre, s.mem⟩) := by
  have hcode := h.code
  rw [hsplit] at hcode
  have hparams := h.params
  have hprologue : encodePrologue 0 (calculateAlignedStackSize f) p
      ⟨s.ctx.fresh f.stackCount, s.mem⟩ =
      some ((bytesOf (prologueOf s.ctx f p)).length, ⟨s.ctx.entered f p, s.mem⟩) := by
    rw [encodePrologue_eq _ _ _ _ hparams]
    simp only [emitBytes_null, Nat.zero_add]
    rfl
  have hpending : (s.ctx.entered f p).pendingCall = [] := JITContext.touchAll_pendingCall _ _
  have hfirst := @sizeInsts_eq pre (s.ctx.entered f p) s.mem
    (by rw [hpending]; exact hcode.left) (bytesOf (prologueOf s.ctx f p)).length 0
  have hstart : resetState s = some (⟨⟩, ⟨s.ctx.fresh s.ctx.stackBase, s.mem⟩) := rfl
  unfold passOne
  rw [bind_of_some hstart, modify_bind]
  refine (bind_of_some hprologue _).trans ?_
  refine (bind_of_some hfirst _).trans ?_
  rfl

theorem passTwo_eq (h : Compilable p f) {pre post : List IRInstruction}
    (hsplit : f.instructions = pre ++ post) (code : Ptr) (s : JITState) :
    passTwo f p code (functionSize s.ctx f p) pre s =
      some (some (code + BitVec.ofNat 64 ((bytesOf (prologueOf s.ctx f p)).length +
          (s.ctx.entered f p).sizeOfAll pre)),
        writeState (code + BitVec.ofNat 64 (bytesOf (prologueOf s.ctx f p)).length) pre
          (enteredState code f p s)) := by
  have hcode := h.code
  rw [hsplit] at hcode
  have hparams := h.params
  have hprologue : encodePrologue code (calculateAlignedStackSize f) p
      ⟨s.ctx.fresh f.stackCount, s.mem⟩ =
      some ((bytesOf (prologueOf s.ctx f p)).length, enteredState code f p s) := by
    rw [encodePrologue_eq _ _ _ _ hparams]
    simp only [emitBytes_size, Nat.zero_add]
    rfl
  have hpending : (s.ctx.entered f p).pendingCall = [] := JITContext.touchAll_pendingCall _ _
  have hsize : (bytesOf (prologueOf s.ctx f p)).length + (s.ctx.entered f p).sizeOfAll pre ≤
      functionSize s.ctx f p := by
    unfold functionSize
    rw [hsplit, JITContext.sizeOfAll_append]
    omega
  have hsecond := @writeInsts_eq code _ pre (enteredState code f p s)
    (by show CodeEncodable (s.ctx.entered f p).pendingCall pre; rw [hpending]; exact hcode.left) _
    hsize
  have hstart : resetState s = some (⟨⟩, ⟨s.ctx.fresh s.ctx.stackBase, s.mem⟩) := rfl
  unfold passTwo
  rw [bind_of_some hstart, modify_bind]
  refine (bind_of_some hprologue _).trans ?_
  exact hsecond

/-- On a function that keeps to the arrays `jit_compile_function` returns. -/
theorem jitCompileFunction_returns (h : Compilable p f)
    (hlimit : f.instructions.length < maxIrInstructionsPerFunction)
    (name : StringView) (code : Ptr) (s : JITState) :
    jitCompileFunction f name p code s =
      some (.returned (registeredState code f name p s).1, (registeredState code f name p s).2) :=
  jitCompileFunction_eq h.labels h.params h.total h.code
    (Nat.lt_trans (functionSize_le h hlimit s.ctx) (by omega))

/-- While there is room in the registry the function is registered. -/
theorem jitCompileFunction_registers (h : Compilable p f)
    (hlimit : f.instructions.length < maxIrInstructionsPerFunction)
    (name : StringView) (code : Ptr) {s : JITState}
    (hroom : s.ctx.registry.length < maxFunctionCount) :
    ∃ s', jitCompileFunction f name p code s =
      some (.returned ⟨code, functionSize s.ctx f p⟩, s') := by
  have hreturns := jitCompileFunction_returns h hlimit name code s
  unfold registeredState at hreturns
  rw [if_neg (by omega)] at hreturns
  exact ⟨_, hreturns⟩

end

/-- From states with the same plan an instruction has the same size with a buffer and
without, and the locations agree again. -/
theorem encodeInst_agree {s₁ s₂ : JITState} {inst : IRInstruction} {buf : Ptr}
    (hplan : s₁.ctx.SamePlan s₂.ctx) (h : Encodable s₁.ctx.pendingCall inst) :
    ∃ size s₁' s₂', encodeInst 0 inst s₁ = some (size, s₁') ∧
      encodeInst buf inst s₂ = some (size, s₂') ∧ s₁'.ctx.vregMap = s₂'.ctx.vregMap := by
  have h' := h
  rw [hplan.pendingCall] at h'
  have hsize : (planned buf inst s₂).1 = (planned 0 inst s₁).1 := by
    rw [planned_size, planned_size, hplan.sizeOf]
  have hinst : encodeInst buf inst s₂ =
      some ((planned 0 inst s₁).1, (planned buf inst s₂).2) := by
    rw [encodeInst_eq h', ← hsize]
  refine ⟨(planned 0 inst s₁).1, (planned 0 inst s₁).2, (planned buf inst s₂).2,
    encodeInst_eq h, hinst, ?_⟩
  exact (planned_samePlan ..).vregMap.trans
    ((hplan.after inst).vregMap.trans (planned_samePlan ..).vregMap.symm)

/-- The two passes agree on every generated function: at each instruction they are in
the same place and both encode it with the same size and leave the same locations, and
`jit_compile_function` does not abort. -/
theorem passes_agree {fresh : IRFunction} {root : ASTNode} {errors : ErrorContext}
    {filename : Option String} {g : GenState}
    (hgen : irGen fresh root errors filename = .ok (true, g)) (herrors : g.f.errors = errors)
    (hlabels : g.f.labelCount < maxLabels) (s : JITState) (name : StringView) (code : Ptr) :
    ∃ predictedSize,
      (∀ pre inst post, g.f.instructions = pre ++ inst :: post →
        ∃ n s₁ s₂, passOne g.f root.params.length pre s = some (n, s₁) ∧
          passTwo g.f root.params.length code predictedSize pre s =
            some (some (code + BitVec.ofNat 64 n), s₂) ∧
          s₁.ctx.vregMap = s₂.ctx.vregMap ∧ s₁.ctx.pendingCall = s₂.ctx.pendingCall ∧
          ∃ size s₁' s₂', encodeInst 0 inst s₁ = some (size, s₁') ∧
            encodeInst (code + BitVec.ofNat 64 n) inst s₂ = some (size, s₂') ∧
            s₁'.ctx.vregMap = s₂'.ctx.vregMap) ∧
      (∃ s₁, passOne g.f root.params.length g.f.instructions s = some (predictedSize, s₁)) ∧
      (∃ s₂, passTwo g.f root.params.length code predictedSize g.f.instructions s =
        some (some (code + BitVec.ofNat 64 predictedSize), s₂)) ∧
      ∃ result s', jitCompileFunction g.f name root.params.length code s =
        some (.returned result, s') ∧
        (s.ctx.registry.length < maxFunctionCount → result = ⟨code, predictedSize⟩) := by
  obtain ⟨hf, -, -, -⟩ := irGen_wellFormed hgen herrors
  have h := wellFormed_compilable hf hlabels
  refine ⟨functionSize s.ctx g.f root.params.length, ?_, ?_, ?_, ?_⟩
  · intro pre inst post hsplit
    refine ⟨_, _, _, passOne_eq h hsplit s, passTwo_eq h hsplit code s, ?_, ?_, ?_⟩
    · exact (writeState_samePlan _ pre (enteredState code g.f _ s)).vregMap.symm
    · exact (writeState_samePlan _ pre (enteredState code g.f _ s)).pendingCall.symm
    · -- the encoder sees the same plan in both passes
      have hplan : (writeState (code + BitVec.ofNat 64 (bytesOf
          (prologueOf s.ctx g.f root.params.length)).length) pre
          (enteredState code g.f root.params.length s)).ctx.SamePlan
            ((s.ctx.entered g.f root.params.length).afterAll pre) := writeState_samePlan ..
      have hpending : (s.ctx.entered g.f root.params.length).pendingCall = [] :=
        JITContext.touchAll_pendingCall _ _
      have hencodable := h.code
      rw [hsplit] at hencodable
      refine encodeInst_agree hplan.symm ?_
      rw [JITContext.afterAll_pendingCall, hpending]
      exact hencodable.at
  · exact ⟨_, passOne_eq h (List.append_nil _).symm s⟩
  · exact ⟨_, passTwo_eq h (List.append_nil _).symm code s⟩
  · refine ⟨_, _, jitCompileFunction_returns h hf.limit name code s, ?_⟩
    intro hroom
    unfold registeredState
    rw [if_neg (by omega)]

/-- Whether `ir_gen` returns a function without an error, with room for its labels. -/
def generates (fresh : IRFunction) (root : ASTNode) (errors : ErrorContext)
    (filename : Option String) : Bool :=
  match irGen fresh root errors filename with
  | .ok (true, g) => decide (g.f.errors = errors ∧ g.f.labelCount < maxLabels)
  | _ => false

theorem exists_of_generates {fresh : IRFunction} {root : ASTNode} {errors : ErrorContext}
    {filename : Option String} (h : generates fresh root errors filename = true) :
    ∃ g, irGen fresh root errors filename = .ok (true, g) ∧ g.f.errors = errors ∧
      g.f.labelCount < maxLabels := by
  unfold generates at h
  split at h
  · rename_i g heq
    exact ⟨g, heq, of_decide_eq_true h⟩
  · cases h

theorem passes_agree_returnZero :
    ∃ g, irGen .zeroed returnZero .init none = .ok (true, g) ∧ g.f.errors = .init ∧
      g.f.labelCount < maxLabels ∧ ∃ result s',
        jitCompileFunction g.f (svOf "main") returnZero.params.length 0x1000#64
          ⟨jitCtxInit, fun _ => 0⟩ = some (.returned result, s') := by
  obtain ⟨g, hgen, herrors, hlabels⟩ :=
    exists_of_generates (show generates .zeroed returnZero .init none = true by decide +kernel)
  obtain ⟨_, -, -, -, result, s', h, -⟩ :=
    passes_agree hgen herrors hlabels ⟨jitCtxInit, fun _ => 0⟩ (svOf "main") 0x1000#64
  exact ⟨g, hgen, herrors, hlabels, result, s', h⟩

end TinyCompile.Jit
