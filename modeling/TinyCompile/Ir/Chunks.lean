import TinyCompile.Ir.Generated
import TinyCompile.Logic.Returns

set_option autoImplicit false

/-!
# Ir: the chunk list

`emit` on linked chunks, as `srcs/ir/ir_gen.c` has it: a chunk is linked behind the tail when
the tail is full.  It keeps the list of chunks that `Ir.Instr` describes, with the head and
the tail where they belong.  The check at the end of `ir_gen` catches every instruction that
`emit` drops.
-/

namespace TinyCompile.Ir

open TinyCompile.Source TinyCompile.Logic

/-! ## Linked chunks -/

/-- A chunk in the arena, with `chunk->next`. -/
structure ChunkNode where
  chunk : IRChunk
  next : Option Nat

/-- The chunks of a function at their addresses, and `head`, `tail` and `total_count` of the
`IRFunction`. -/
structure ChunkList where
  nodes : List ChunkNode
  head : Option Nat
  tail : Option Nat
  totalCount : Nat

namespace ChunkList

/-- No chunk yet. -/
def empty : ChunkList := ⟨[], none, none, 0⟩

/-- `*new_chunk = (IRChunk){0}`. -/
def zeroChunk : IRChunk := ⟨[], Nat.zero_le _⟩

/-- Link a new chunk behind the tail, or as the head. -/
def addChunk (l : ChunkList) : ChunkList :=
  let new := l.nodes.length
  match l.tail with
  | some tail =>
      { l with
        nodes := l.nodes.modify tail ({ · with next := some new }) ++ [⟨zeroChunk, none⟩],
        tail := some new }
  | none =>
      { l with nodes := l.nodes ++ [⟨zeroChunk, none⟩], head := some new, tail := some new }

/-- Store an instruction in the tail; nothing where there is no tail or no place in it. -/
def store (l : ChunkList) (inst : IRInstruction) : Option ChunkList := do
  let tail ← l.tail
  let node ← l.nodes[tail]?
  if h : node.chunk.count < irChunkSize then
    some { l with nodes := l.nodes.set tail ⟨node.chunk.push inst h, node.next⟩,
                  totalCount := l.totalCount + 1 }
  else none

/-- Whether the tail is missing or full. -/
def needsChunk (l : ChunkList) : Option Bool :=
  match l.tail with
  | none => some true
  | some tail => (l.nodes[tail]?).map fun node => decide (node.chunk.count ≥ irChunkSize)

/-- `emit`. -/
def emit (l : ChunkList) (inst : IRInstruction) : Option ChunkList :=
  if l.totalCount ≥ maxIrInstructionsPerFunction then some l
  else do
    let needs ← l.needsChunk
    (if needs then l.addChunk else l).store inst

/-- The chunks from an address on; nothing where the links do not end. -/
def chunksFrom (l : ChunkList) : Nat → Option Nat → Option (List IRChunk)
  | _, none => some []
  | 0, some _ => none
  | n + 1, some address => do
      let node ← l.nodes[address]?
      let more ← l.chunksFrom n node.next
      return node.chunk :: more

/-- The chunks from the head on. -/
def chunks (l : ChunkList) : Option (List IRChunk) := l.chunksFrom l.nodes.length l.head

end ChunkList

/-! ## Chunks in a row -/

/-- The chunks of a list at consecutive addresses, each linked to the next. -/
def linked (chunks : List IRChunk) : List ChunkNode :=
  chunks.mapIdx fun i chunk => ⟨chunk, if i + 1 < chunks.length then some (i + 1) else none⟩

/-- A list of chunks with its head and its tail. -/
def ChunkList.ofChunks (chunks : List IRChunk) (totalCount : Nat) : ChunkList where
  nodes := linked chunks
  head := if chunks = [] then none else some 0
  tail := if chunks = [] then none else some (chunks.length - 1)
  totalCount := totalCount

section

variable {chunks : List IRChunk} {c : IRChunk} {total : Nat}

@[simp] theorem linked_length (chunks : List IRChunk) :
    (linked chunks).length = chunks.length := by
  simp [linked]

theorem linked_getElem? (chunks : List IRChunk) (i : Nat) : (linked chunks)[i]? =
    chunks[i]?.map fun c => ⟨c, if i + 1 < chunks.length then some (i + 1) else none⟩ := by
  simp [linked]

theorem pushTail_snoc (inst : IRInstruction) (chunks : List IRChunk) (c : IRChunk) :
    pushTail inst (chunks ++ [c]) =
      if h : c.count < irChunkSize then chunks ++ [c.push inst h]
      else chunks ++ [c, IRChunk.single inst] := by
  induction chunks with
  | nil => rfl
  | cons c' cs ih =>
    have hstep : pushTail inst (c' :: cs ++ [c]) = c' :: pushTail inst (cs ++ [c]) := by
      cases cs <;> rfl
    rw [hstep, ih]
    split <;> rfl

/-- Following the links from a chunk on visits the chunks behind it. -/
theorem chunksFrom_linked (chunks : List IRChunk) (total n i : Nat)
    (hn : chunks.length ≤ i + n) : (ChunkList.ofChunks chunks total).chunksFrom n
      (if i < chunks.length then some i else none) = some (chunks.drop i) := by
  induction n generalizing i with
  | zero =>
    rw [if_neg (by omega), List.drop_eq_nil_of_le (by omega)]
    rfl
  | succ n ih =>
    split
    · rename_i hi
      have hnode : (ChunkList.ofChunks chunks total).nodes[i]? =
          some ⟨chunks[i], if i + 1 < chunks.length then some (i + 1) else none⟩ := by
        show (linked chunks)[i]? = _
        rw [linked_getElem?, List.getElem?_eq_getElem hi]
        rfl
      rw [ChunkList.chunksFrom, hnode]
      show ((ChunkList.ofChunks chunks total).chunksFrom n _ >>= _) = _
      rw [ih (i + 1) (by omega), List.drop_eq_getElem_cons hi]
      rfl
    · rw [List.drop_eq_nil_of_le (by omega)]
      rfl

theorem chunks_ofChunks (chunks : List IRChunk) (total : Nat) :
    (ChunkList.ofChunks chunks total).chunks = some chunks := by
  have h := chunksFrom_linked chunks total chunks.length 0 (by omega)
  have hhead : (ChunkList.ofChunks chunks total).head =
      if 0 < chunks.length then some 0 else none := by
    cases chunks <;> rfl
  unfold ChunkList.chunks
  rw [hhead]
  show ChunkList.chunksFrom _ (linked chunks).length _ = _
  rw [linked_length, h, List.drop_zero]

theorem tail_snoc (chunks : List IRChunk) (c : IRChunk) (total : Nat) :
    (ChunkList.ofChunks (chunks ++ [c]) total).tail = some chunks.length := by
  simp [ChunkList.ofChunks]

theorem tailNode_snoc (chunks : List IRChunk) (c : IRChunk) (total : Nat) :
    (ChunkList.ofChunks (chunks ++ [c]) total).nodes[chunks.length]? = some ⟨c, none⟩ := by
  show (linked (chunks ++ [c]))[chunks.length]? = _
  rw [linked_getElem?]
  simp

/-- Storing in a tail with room. -/
theorem store_snoc (inst : IRInstruction) (h : c.count < irChunkSize) :
    (ChunkList.ofChunks (chunks ++ [c]) total).store inst =
      some (.ofChunks (chunks ++ [c.push inst h]) (total + 1)) := by
  unfold ChunkList.store
  rw [tail_snoc]
  show ((ChunkList.ofChunks (chunks ++ [c]) total).nodes[chunks.length]? >>= _) = _
  rw [tailNode_snoc]
  show (if h : c.count < irChunkSize then _ else _) = _
  rw [dif_pos h]
  refine congrArg some ?_
  unfold ChunkList.ofChunks
  congr 1
  · apply List.ext_getElem?
    intro i
    rw [List.getElem?_set, linked_getElem?, linked_getElem?]
    by_cases hi : chunks.length = i
    · subst hi
      simp
    · rw [if_neg hi]
      by_cases hlt : i < chunks.length
      · rw [List.getElem?_append_left hlt, List.getElem?_append_left hlt]
        simp
      · have hnone : ∀ c' : IRChunk, (chunks ++ [c'])[i]? = none := fun c' =>
          List.getElem?_eq_none (by rw [List.length_append, List.length_singleton]; omega)
        rw [hnone, hnone]
        rfl
  · simp
  · simp

/-- Linking a chunk. -/
theorem addChunk_ofChunks (chunks : List IRChunk) (total : Nat) :
    (ChunkList.ofChunks chunks total).addChunk =
      .ofChunks (chunks ++ [ChunkList.zeroChunk]) total := by
  obtain rfl | ⟨init, c, rfl⟩ := List.eq_nil_or_concat chunks
  · rfl
  · rw [List.concat_eq_append]
    unfold ChunkList.addChunk
    rw [tail_snoc]
    unfold ChunkList.ofChunks
    simp only
    congr 1
    · apply List.ext_getElem?
      intro i
      rw [List.getElem?_append, List.length_modify, linked_length, List.getElem?_modify,
        linked_getElem?, linked_getElem?]
      by_cases hi : i < (init ++ [c]).length
      · rw [if_pos hi, List.getElem?_append_left hi]
        rw [List.length_append, List.length_singleton] at hi
        by_cases hlast : init.length = i
        · subst hlast
          simp
        · have hlt : i + 1 < (init ++ [c]).length := by
            rw [List.length_append, List.length_singleton]
            omega
          have hlt' : i + 1 < (init ++ [c] ++ [ChunkList.zeroChunk]).length := by
            rw [List.length_append]
            omega
          simp only [if_pos hlt, if_pos hlt', if_neg hlast]
          cases (init ++ [c])[i]? <;> rfl
      · rw [if_neg hi, List.getElem?_append_right (Nat.le_of_not_lt hi)]
        rw [List.length_append, List.length_singleton] at hi ⊢
        by_cases hlast : i = init.length + 1
        · subst hlast
          simp
        · obtain ⟨k, hk⟩ : ∃ k, i - (init.length + 1) = k + 1 :=
            ⟨i - (init.length + 1) - 1, by omega⟩
          rw [hk]
          rfl
    · simp
    · simp

/-- `emit` on linked chunks is `emit` on the list of chunks. -/
theorem emit_ofChunks (f : IRFunction) (inst : IRInstruction) :
    (ChunkList.ofChunks f.chunks f.totalCount).emit inst =
      some (.ofChunks (emit f inst).chunks (emit f inst).totalCount) := by
  unfold ChunkList.emit Ir.emit
  by_cases hfull : f.totalCount ≥ maxIrInstructionsPerFunction
  · rw [if_pos hfull]
    exact if_pos hfull
  · rw [if_neg hfull]
    refine (if_neg hfull).trans ?_
    have hzero : ChunkList.zeroChunk.count < irChunkSize := by decide
    have hnew : ChunkList.zeroChunk.push inst hzero = IRChunk.single inst := rfl
    obtain hnil | ⟨init, c, hsnoc⟩ := List.eq_nil_or_concat f.chunks
    · rw [hnil]
      show ((ChunkList.ofChunks [] f.totalCount).addChunk).store inst = _
      rw [addChunk_ofChunks]
      exact store_snoc inst hzero
    · rw [List.concat_eq_append] at hsnoc
      have hneeds : (ChunkList.ofChunks f.chunks f.totalCount).needsChunk =
          some (decide (c.count ≥ irChunkSize)) := by
        rw [hsnoc]
        unfold ChunkList.needsChunk
        rw [tail_snoc]
        simp only [tailNode_snoc, Option.map_some]
      rw [hneeds, hsnoc]
      show (if decide (c.count ≥ irChunkSize) = true then _ else _ : ChunkList).store inst = _
      rw [pushTail_snoc]
      by_cases hroom : c.count < irChunkSize
      · rw [if_neg (by simpa using hroom), dif_pos hroom]
        exact store_snoc inst hroom
      · rw [if_pos (by simpa using hroom), dif_neg hroom, addChunk_ofChunks,
          store_snoc inst hzero, hnew, List.append_assoc]
        rfl

theorem emitAll_ofChunks (f : IRFunction) (code : List IRInstruction) :
    code.foldlM ChunkList.emit (.ofChunks f.chunks f.totalCount) =
      some (.ofChunks (emitAll f code).chunks (emitAll f code).totalCount) := by
  induction code generalizing f with
  | nil => rfl
  | cons inst code ih =>
    rw [List.foldlM_cons, emit_ofChunks]
    exact ih (emit f inst)

end

/-! ## Full chunks -/

/-- Every chunk but the last is full. -/
def FullChunks (chunks : List IRChunk) : Prop := ∀ c ∈ chunks.dropLast, c.count = irChunkSize

theorem fullChunks_pushTail {chunks : List IRChunk} (h : FullChunks chunks)
    (inst : IRInstruction) : FullChunks (pushTail inst chunks) := by
  obtain rfl | ⟨init, c, rfl⟩ := List.eq_nil_or_concat chunks
  · exact fun c hc => absurd hc List.not_mem_nil
  · rw [List.concat_eq_append] at h ⊢
    unfold FullChunks at h
    rw [List.dropLast_concat] at h
    rw [pushTail_snoc]
    split
    · unfold FullChunks
      rwa [List.dropLast_concat]
    · rename_i hfull
      have hpair : init ++ [c, IRChunk.single inst] =
          init ++ [c] ++ [IRChunk.single inst] := by
        simp
      unfold FullChunks
      rw [hpair, List.dropLast_concat]
      intro c' hc'
      rcases List.mem_append.mp hc' with hmem | hmem
      · exact h c' hmem
      · rw [List.mem_singleton.mp hmem]
        exact Nat.le_antisymm c.count_le (Nat.le_of_not_lt hfull)

theorem fullChunks_emitAll {f : IRFunction} (h : FullChunks f.chunks)
    (code : List IRInstruction) : FullChunks (emitAll f code).chunks := by
  induction code generalizing f with
  | nil => exact h
  | cons inst code ih =>
    refine ih ?_
    unfold emit
    split
    · exact h
    · exact fullChunks_pushTail h inst

/-! ## Giving up on an expression -/

/-- A register, or a reason for having none. -/
def HasReason (reg : Option Nat) (history : List Event) : Prop :=
  reg = none ∨ reg = some 0 →
    ∃ reason, Event.drop reason ∈ history ∧ reason ≠ .returnWithoutExpression

theorem HasReason.append_left {reg : Option Nat} {history more : List Event}
    (h : HasReason reg history) : HasReason reg (more ++ history) := by
  intro hreg
  obtain ⟨reason, hmem, hne⟩ := h hreg
  exact ⟨reason, List.mem_append_right _ hmem, hne⟩

theorem hasReason_drop {reg : Option Nat} {history : List Event} {reason : Drop}
    (hmem : Event.drop reason ∈ history) (hne : reason ≠ .returnWithoutExpression) :
    HasReason reg history := fun _ => ⟨reason, hmem, hne⟩

theorem hasReason_finish {code : List IRInstruction} {next : Nat} {history : List Event}
    {inst : Nat → IRInstruction} (hpos : 0 < next) :
    next ≤ (finish code next history inst).next ∧
      HasReason (some (finish code next history inst).reg)
        (finish code next history inst).history := by
  unfold finish
  split
  · exact ⟨Nat.le_refl _,
      hasReason_drop (List.mem_append_right _ (List.mem_singleton_self _)) nofun⟩
  · refine ⟨Nat.le_succ _, fun hreg => ?_⟩
    obtain h | h := hreg
    · cases h
    · have := Option.some.inj h
      simp only at this
      omega

mutual

/-- An expression without names in scope leaves a register, or a reason for having none. -/
theorem lowerExpr_hasReason : ∀ (node : ASTNode) (next : Nat), 0 < next →
    next ≤ (lowerExpr [] node next).next ∧
      HasReason (some (lowerExpr [] node next).reg) (lowerExpr [] node next).history
  | .null, _, _ => ⟨Nat.le_refl _, hasReason_drop (List.mem_singleton_self _) nofun⟩
  | .number _ _, _, hpos => hasReason_finish hpos
  | .identifier _ _, _, _ => ⟨Nat.le_refl _, hasReason_drop (List.mem_singleton_self _) nofun⟩
  | .unary op info operand, next, hpos => by
      obtain ⟨hle, hreason⟩ := lowerExpr_hasReason operand next hpos
      simp only [lowerExpr]
      split
      · exact ⟨hle, hreason⟩
      · obtain ⟨hle', hreason'⟩ := hasReason_finish (Nat.lt_of_lt_of_le hpos hle)
        exact ⟨Nat.le_trans hle hle', hreason'⟩
  | .binary op info left right, next, hpos => by
      obtain ⟨hle, hreason⟩ := lowerExpr_hasReason left next hpos
      obtain ⟨hle', hreason'⟩ := lowerExpr_hasReason right (lowerExpr [] left next).next
        (Nat.lt_of_lt_of_le hpos hle)
      simp only [lowerExpr]
      split
      · exact ⟨hle, hreason⟩
      · split
        · rename_i hzero
          rw [hzero] at hreason'
          exact ⟨Nat.le_trans hle hle', hreason'.append_left⟩
        · obtain ⟨hle'', hreason''⟩ := hasReason_finish
            (Nat.lt_of_lt_of_le hpos (Nat.le_trans hle hle'))
          exact ⟨Nat.le_trans (Nat.le_trans hle hle') hle'', hreason''⟩
  | .call info functionName args, next, hpos => by
      obtain ⟨hle, hreason⟩ := lowerArgs_hasReason args next hpos
      simp only [lowerExpr]
      split
      · rename_i hnone
        rw [hnone] at hreason
        exact ⟨hle, fun _ => hreason (.inl rfl)⟩
      · obtain ⟨hle', hreason'⟩ := hasReason_finish (Nat.lt_of_lt_of_le hpos hle)
        exact ⟨Nat.le_trans hle hle', hreason'⟩
  | .varDecl _ _ _ _, _, _ => ⟨Nat.le_refl _, hasReason_drop (List.mem_singleton_self _) nofun⟩
  | .assignment _ _ _, _, _ =>
      ⟨Nat.le_refl _, hasReason_drop (List.mem_singleton_self _) nofun⟩
  | .returnStmt _ _, _, _ => ⟨Nat.le_refl _, hasReason_drop (List.mem_singleton_self _) nofun⟩
  | .ifStmt _ _ _ _, _, _ => ⟨Nat.le_refl _, hasReason_drop (List.mem_singleton_self _) nofun⟩
  | .whileStmt _ _ _, _, _ => ⟨Nat.le_refl _, hasReason_drop (List.mem_singleton_self _) nofun⟩
  | .block _ _, _, _ => ⟨Nat.le_refl _, hasReason_drop (List.mem_singleton_self _) nofun⟩
  | .function _ _ _ _ _ _, _, _ =>
      ⟨Nat.le_refl _, hasReason_drop (List.mem_singleton_self _) nofun⟩
  | .translationUnit _ _, _, _ =>
      ⟨Nat.le_refl _, hasReason_drop (List.mem_singleton_self _) nofun⟩

/-- The arguments of a call leave registers, or a reason for having none. -/
theorem lowerArgs_hasReason : ∀ (args : List ASTNode) (next : Nat), 0 < next →
    next ≤ (lowerArgs [] args next).next ∧
      HasReason ((lowerArgs [] args next).regs.map fun _ => 1) (lowerArgs [] args next).history
  | [], _, _ => ⟨Nat.le_refl _, nofun⟩
  | arg :: rest, next, hpos => by
      obtain ⟨hle, hreason⟩ := lowerExpr_hasReason arg next hpos
      obtain ⟨hle', hreason'⟩ := lowerArgs_hasReason rest (lowerExpr [] arg next).next
        (Nat.lt_of_lt_of_le hpos hle)
      simp only [lowerArgs]
      split
      · rename_i hzero
        rw [hzero] at hreason
        exact ⟨hle, fun _ => hreason (.inr rfl)⟩
      · refine ⟨Nat.le_trans hle hle', HasReason.append_left ?_⟩
        rw [Option.map_map]
        exact hreason'

end

/-! ## No instruction is lost -/

/-- Neither a function nor a block: `ir_gen` returns the value of such a root. -/
def ExpressionRoot : ASTNode → Prop
  | .function _ _ _ _ _ _ => False
  | .block _ _ => False
  | _ => True

/-- What `genRoot` does with an expression. -/
theorem genRoot_expression {root : ASTNode} (h : ExpressionRoot root) : genRoot root = (do
    let resultReg ← genExpression root
    if resultReg = 0 then return false
    let type ← valueTypeOf root
    emitInst { opcode := .ret, type := type, src1 := resultReg }
    return true : GenM Bool) := by
  cases root with
  | function _ _ _ _ _ _ => cases h
  | block _ _ => cases h
  | _ => rfl

/-- Where `genRoot` gives up: at the parameters, or on an expression. -/
theorem genRoot_false {root : ASTNode} {s s' : GenState} (hst : s.symbolTable.Binds [])
    (hcounters : s.f.counters = ⟨1, s.f.stackCount, 0⟩)
    (h : Returns (genRoot root) s false s') :
    (∃ st', s' = s.after [] [.drop .vregLimit] ⟨maxVregsPerFunction, s.f.stackCount, 0⟩ st') ∨
      ExpressionRoot root ∧ (lowerExpr [] root 1).reg = 0 ∧
        s' = s.afterExpr (lowerExpr [] root 1) := by
  have hvreg : s.f.vregCount = 1 := congrArg Counters.vreg hcounters
  by_cases hroot : ExpressionRoot root
  · rw [genRoot_expression hroot, returns_bind] at h
    obtain ⟨reg, s₁, hexpr, hrest⟩ := h
    obtain ⟨hreg, hs₁⟩ := (genExpression_ensures root s hst).of_ok hexpr
    rw [hvreg] at hreg hs₁
    by_cases hzero : reg = 0
    · rw [if_pos hzero] at hrest
      obtain ⟨-, rfl⟩ := returns_pure.mp hrest
      exact .inr ⟨hroot, hreg.symm.trans hzero, hs₁⟩
    · rw [if_neg hzero] at hrest
      obtain ⟨type, s₂, -, hrest⟩ := returns_bind.mp hrest
      obtain ⟨u, s₃, -, hrest⟩ := returns_bind.mp hrest
      cases (returns_pure.mp hrest).1
  · cases root with
    | function info name returnType params body isPrototype =>
      simp only [genRoot] at h
      obtain ⟨generated, s₁, hparams, hrest⟩ := returns_bind.mp h
      obtain ⟨st', hspec⟩ :=
        (genParams_ensures [] params 0 s hst hvreg (by decide)).of_ok hparams
      cases generated with
      | false =>
        obtain ⟨-, rfl⟩ := returns_pure.mp hrest
        rw [hcounters] at hspec
        exact .inl ⟨st', hspec⟩
      | true =>
        rw [if_pos rfl] at hrest
        cases body with
        | block bodyInfo statements =>
          obtain ⟨u, s₂, -, hrest⟩ := returns_bind.mp hrest
          cases (returns_pure.mp hrest).1
        | _ => cases (returns_pure.mp hrest).1
    | block info statements =>
      simp only [genRoot] at h
      obtain ⟨u, s₁, -, hrest⟩ := returns_bind.mp h
      cases (returns_pure.mp hrest).1
    | _ => exact absurd trivial hroot

/-- A run of `ir_gen` is a run of `genRoot` and the check of the limit. -/
theorem irGen_run {fresh : IRFunction} {root : ASTNode} {errors : ErrorContext}
    {filename : Option String} {generated : Bool} {s : GenState}
    (h : irGen fresh root errors filename = .ok (generated, s)) (hnull : root.isNull = false) :
    ∃ generated₁ s₁,
      Returns (genRoot root) (initState fresh root errors filename) generated₁ s₁ ∧
        checkLimit generated₁ s₁ = (generated, s) := by
  rw [irGen_eq hnull] at h
  cases hrun : genRoot root (initState fresh root errors filename) with
  | error stop =>
    rw [hrun] at h
    cases h
  | ok p =>
    rw [hrun] at h
    exact ⟨p.1, p.2, hrun, Except.ok.inj h⟩

/-- The check passes a function below the limit on. -/
theorem checkLimit_true {generated : Bool} {s₁ s : GenState}
    (h : checkLimit generated s₁ = (true, s)) : generated = true ∧ s₁ = s := by
  unfold checkLimit at h
  split at h
  · cases h
  · exact Prod.mk.inj h

/-- The chunks of a function that is returned. -/
theorem irGen_chunks {fresh : IRFunction} {root : ASTNode} {errors : ErrorContext}
    {filename : Option String} {s : GenState}
    (h : irGen fresh root errors filename = .ok (true, s)) : ∃ f₀ : IRFunction,
      f₀.chunks = [] ∧ f₀.totalCount = 0 ∧
        s.f.chunks = (emitAll f₀ (lowerRoot fresh.stackCount root).code).chunks ∧
        s.f.totalCount = (emitAll f₀ (lowerRoot fresh.stackCount root).code).totalCount := by
  have hnull : root.isNull = false := by
    cases hroot : root.isNull with
    | false => rfl
    | true => simp [irGen, hroot] at h
  obtain ⟨generated₁, s₁, hrun, hlimit⟩ := irGen_run h hnull
  obtain ⟨rfl, rfl⟩ := checkLimit_true hlimit
  obtain ⟨st', ⟨rfl, -⟩ | ⟨hfalse, -⟩⟩ := (rootSpec_init fresh root errors filename).of_ok hrun
  · exact ⟨(initState fresh root errors filename).f, rfl, rfl, rfl, rfl⟩
  · cases hfalse

/-- An expression that is given up: an error is recorded, or a part is missing. -/
theorem expression_gaveUp {root : ASTNode} {name : StringView} {filename : Option String}
    {errors : ErrorContext} (hreg : (lowerExpr [] root 1).reg = 0) :
    errors.nodes.length <
        (noteHistory name filename errors (lowerExpr [] root 1).history).nodes.length ∨
      Event.drop .missingNode ∈ (lowerExpr [] root 1).history := by
  obtain ⟨reason, hmem, hne⟩ := (lowerExpr_hasReason root 1 (by decide)).2 (by simp [hreg])
  by_cases hlt : errors.nodes.length <
      (noteHistory name filename errors (lowerExpr [] root 1).history).nodes.length
  · exact .inl hlt
  · obtain rfl | rfl := drops_of_length (Nat.le_of_not_lt hlt) hmem
    · exact .inr hmem
    · exact absurd rfl hne

/-- An instruction that `emit` drops is caught. -/
theorem irGen_dropped {fresh : IRFunction} {root : ASTNode} {errors : ErrorContext}
    {filename : Option String} {generated : Bool} {s : GenState}
    (h : irGen fresh root errors filename = .ok (generated, s))
    (hlong : maxIrInstructionsPerFunction < (lowerRoot fresh.stackCount root).code.length) :
    generated = false ∧ (errors.nodes.length < s.f.errors.nodes.length ∨
      ExpressionRoot root ∧ (lowerExpr [] root 1).reg = 0 ∧
        Event.drop .missingNode ∈ (lowerExpr [] root 1).history) := by
  have hnull : root.isNull = false := by
    cases root with
    | null => cases hlong
    | _ => rfl
  obtain ⟨generated₁, s₁, hrun, hlimit⟩ := irGen_run h hnull
  cases generated₁ with
  | true =>
    obtain ⟨st', ⟨hs₁, -⟩ | ⟨hfalse, -⟩⟩ :=
      (rootSpec_init fresh root errors filename).of_ok hrun
    · have hgen := @GeneratedFrom.of_after (initState fresh root errors filename)
        (lowerRoot fresh.stackCount root) st' rfl rfl rfl
      have hs : s₁ = (initState fresh root errors filename).afterStmt
        (lowerRoot fresh.stackCount root) st' := hs₁
      have htotal : s₁.f.totalCount = maxIrInstructionsPerFunction := by
        rw [hs]
        exact hgen.total.trans (Nat.min_eq_left (Nat.le_of_lt hlong))
      unfold checkLimit at hlimit
      rw [htotal] at hlimit
      obtain ⟨rfl, rfl⟩ := Prod.mk.inj hlimit
      refine ⟨rfl, .inl ?_⟩
      show _ < (errorAdd s₁.f.errors _ _ _ _ _ _).nodes.length
      rw [errorAdd_nodes, List.length_append, hs]
      show _ < (noteHistory _ _ errors _).nodes.length + _
      rw [noteHistory_nodes_length, List.length_singleton]
      omega
    · cases hfalse
  | false =>
    obtain ⟨rfl, rfl⟩ : false = generated ∧ s₁ = s := Prod.mk.inj hlimit
    refine ⟨rfl, ?_⟩
    obtain ⟨st', rfl⟩ | ⟨hroot, hreg, rfl⟩ := genRoot_false SymbolTable.binds_init rfl hrun
    · refine .inl ?_
      show _ < (noteHistory _ _ errors [.drop .vregLimit]).nodes.length
      rw [noteHistory_nodes_length]
      simp [reportedDrops, Drop.message]
    · exact (expression_gaveUp hreg).imp_right fun hmissing => ⟨hroot, hreg, hmissing⟩

/-- Whatever `ir_gen` is called on: the function it returns has every instruction that was
emitted, in order, in chunks that are full up to the last one, and `emit` on linked chunks
builds that list.  When an instruction was dropped, no function is returned; an error is
recorded unless the root is an expression with a missing part. -/
theorem irGen_emits_all {fresh : IRFunction} {root : ASTNode} {errors : ErrorContext}
    {filename : Option String} {generated : Bool} {s : GenState}
    (h : irGen fresh root errors filename = .ok (generated, s)) :
    (generated = true →
      s.f.instructions = (lowerRoot fresh.stackCount root).code ∧
        s.f.totalCount = (lowerRoot fresh.stackCount root).code.length ∧
        FullChunks s.f.chunks ∧
        ∃ l, (lowerRoot fresh.stackCount root).code.foldlM ChunkList.emit .empty = some l ∧
          l.chunks = some s.f.chunks ∧ l.totalCount = s.f.totalCount ∧
          l.tail = if s.f.chunks = [] then none else some (s.f.chunks.length - 1)) ∧
      (maxIrInstructionsPerFunction < (lowerRoot fresh.stackCount root).code.length →
        generated = false ∧ (errors.nodes.length < s.f.errors.nodes.length ∨
          ExpressionRoot root ∧ (lowerExpr [] root 1).reg = 0 ∧
            Event.drop .missingNode ∈ (lowerExpr [] root 1).history)) := by
  refine ⟨?_, irGen_dropped h⟩
  rintro rfl
  obtain ⟨hgen, hlt, -⟩ := irGen_returns h
  obtain ⟨f₀, hchunks, htotal, hlist, hcount⟩ := irGen_chunks h
  refine ⟨hgen.code (Nat.le_of_lt hlt), hgen.total.trans (Nat.min_eq_right (Nat.le_of_lt hlt)),
    ?_, ?_⟩
  · rw [hlist]
    refine fullChunks_emitAll ?_ _
    rw [hchunks]
    exact fun c hc => absurd hc List.not_mem_nil
  · have hlinked := emitAll_ofChunks f₀ (lowerRoot fresh.stackCount root).code
    rw [hchunks, htotal, ← hlist, ← hcount] at hlinked
    exact ⟨_, hlinked, chunks_ofChunks _ _, rfl, rfl⟩

theorem irGen_emits_all_returnZero :
    ∃ s, irGen .zeroed returnZero .init none = .ok (true, s) ∧
      s.f.instructions = (lowerRoot IRFunction.zeroed.stackCount returnZero).code ∧
      s.f.totalCount = (lowerRoot IRFunction.zeroed.stackCount returnZero).code.length := by
  have hrun : ∃ s, irGen .zeroed returnZero .init none = .ok (true, s) := ⟨_, rfl⟩
  obtain ⟨s, hs⟩ := hrun
  obtain ⟨hcode, htotal, -⟩ := (irGen_emits_all hs).1 rfl
  exact ⟨s, hs, hcode, htotal⟩

/-! ## A root with a missing part -/

/-- `f(f(… f(1) …))`, with `n` calls. -/
def nestedCalls : Nat → ASTNode
  | 0 => .number ⟨0, .int, 1, 1⟩ (svOf "1")
  | n + 1 => .call ⟨0, .int, 1, 1⟩ (svOf "f") [nestedCalls n]

/-- An addition without a right operand. -/
def missingOperand (n : Nat) : ASTNode := .binary .add ⟨0, .int, 1, 1⟩ (nestedCalls n) .null

theorem nestedCalls_complete (n : Nat) : (nestedCalls n).CompleteExpr := by
  induction n with
  | zero => trivial
  | succ n ih => exact ⟨by simp [maxParamsPerFunction], ih, trivial⟩

theorem lowerExpr_nestedCalls (n : Nat) {next : Nat} (hpos : 0 < next)
    (hroom : next + n < maxVregsPerFunction) :
    (lowerExpr [] (nestedCalls n) next).reg = next + n ∧
      (lowerExpr [] (nestedCalls n) next).next = next + n + 1 ∧
      (lowerExpr [] (nestedCalls n) next).code.length = 2 * n + 1 ∧
      (lowerExpr [] (nestedCalls n) next).history = [] := by
  induction n with
  | zero =>
    simp only [nestedCalls, lowerExpr, finish]
    rw [if_neg (by omega)]
    exact ⟨rfl, rfl, rfl, rfl⟩
  | succ n ih =>
    obtain ⟨hreg, hnext, hcode, hhistory⟩ := ih (by omega)
    have hargs : lowerArgs [] [nestedCalls n] next =
        ⟨(lowerExpr [] (nestedCalls n) next).code, some [next + n], next + n + 1, []⟩ := by
      simp only [lowerArgs]
      rw [if_neg (by omega), hreg, hnext, hhistory]
      simp
    simp only [nestedCalls, lowerExpr, hargs, finish]
    rw [if_neg (by omega)]
    refine ⟨rfl, rfl, ?_, rfl⟩
    simp [argInsts, hcode]
    omega

theorem lowerExpr_missingOperand {n : Nat} (hroom : 1 + n < maxVregsPerFunction) :
    lowerExpr [] (missingOperand n) 1 =
      ⟨(lowerExpr [] (nestedCalls n) 1).code, 0, 1 + n + 1, [.drop .missingNode]⟩ := by
  obtain ⟨hreg, hnext, -, hhistory⟩ := lowerExpr_nestedCalls n Nat.one_pos hroom
  simp only [missingOperand, lowerExpr]
  rw [if_neg (by omega), hnext, hhistory]
  simp

/-- Without the right operand `gen_binary_op` returns 0 and records nothing. -/
theorem genExpression_missingOperand {n : Nat} {s : GenState}
    (hst : s.symbolTable.Binds []) (hvreg : s.f.vregCount = 1)
    (hroom : 1 + n < maxVregsPerFunction) :
    Returns (genExpression (missingOperand n)) s 0
      (s.afterExpr (lowerExpr [] (missingOperand n) 1)) := by
  have hleft := genExpression_ensures (nestedCalls n) s hst
  obtain ⟨hreg, hnext, -, hhistory⟩ := lowerExpr_nestedCalls n Nat.one_pos hroom
  simp only [missingOperand, genExpression, genBinaryOp]
  refine returns_bind.mpr ⟨1 + n, s.afterExpr (lowerExpr [] (nestedCalls n) 1), ?_, ?_⟩
  · cases hrun : genExpression (nestedCalls n) s with
    | error stop => exact absurd (nestedCalls_complete n) (hleft.of_error hrun).2
    | ok p =>
      obtain ⟨hp, hs⟩ := hleft.of_ok hrun
      rw [hvreg] at hp hs
      exact hrun.trans (by rw [← hs, ← hreg, ← hp])
  · rw [if_neg (by omega)]
    refine returns_bind.mpr ⟨0, _, giveUp_run .missingNode _ rfl, ?_⟩
    rw [if_pos rfl, returns_pure]
    refine ⟨rfl, ?_⟩
    rw [← missingOperand, lowerExpr_missingOperand hroom]
    unfold GenState.afterExpr
    rw [GenState.after_after, hhistory, hnext]
    simp

/-- `ir_gen` drops instructions of such a root and records no error. -/
theorem irGen_missingOperand {n : Nat} {fresh : IRFunction} {errors : ErrorContext}
    {filename : Option String} (hroom : 1 + n < maxVregsPerFunction) :
    ∃ s, irGen fresh (missingOperand n) errors filename = .ok (false, s) ∧
      s.f.errors = errors ∧
      (lowerRoot fresh.stackCount (missingOperand n)).code.length = 2 * n + 1 := by
  have hlower := lowerExpr_missingOperand hroom
  have hexpr := @genExpression_missingOperand n
    (initState fresh (missingOperand n) errors filename) SymbolTable.binds_init rfl hroom
  refine ⟨(initState fresh (missingOperand n) errors filename).afterExpr
    (lowerExpr [] (missingOperand n) 1), (irGen_eq rfl).trans ?_, ?_, ?_⟩
  · have hroot : Returns (genRoot (missingOperand n))
        (initState fresh (missingOperand n) errors filename) false
        ((initState fresh (missingOperand n) errors filename).afterExpr
          (lowerExpr [] (missingOperand n) 1)) := by
      rw [@genRoot_expression (missingOperand n) trivial]
      refine returns_bind.mpr ⟨0, _, hexpr, ?_⟩
      rw [if_pos rfl]
      exact returns_pure.mpr ⟨rfl, rfl⟩
    have hmap := congrArg (Except.map fun p => checkLimit p.1 p.2) hroot
    exact hmap
  · rw [hlower]
    rfl
  · show ((lowerExpr [] (missingOperand n) 1).code ++ _).length = _
    rw [hlower, List.length_append]
    exact (lowerExpr_nestedCalls n Nat.one_pos hroom).2.2.1

/-- 66001 instructions for `gen_expression`, none of them in a function and no error. -/
theorem irGen_drops_silently :
    ∃ s, irGen .zeroed (missingOperand 33000) .init none = .ok (false, s) ∧
      s.f.errors = .init ∧ maxIrInstructionsPerFunction <
        (lowerRoot IRFunction.zeroed.stackCount (missingOperand 33000)).code.length := by
  have hroom : 1 + 33000 < maxVregsPerFunction := by decide
  obtain ⟨s, hrun, herrors, hlength⟩ :=
    @irGen_missingOperand 33000 .zeroed .init none hroom
  refine ⟨s, hrun, herrors, ?_⟩
  rw [hlength]
  decide

end TinyCompile.Ir
