import TinyCompile.Ir.GenLower

set_option autoImplicit false

/-!
# Ir: how many arguments a call has

`gen_call` collects the registers of the arguments in an array of
`MAX_PARAMS_PER_FUNCTION` elements, so a generated `IR_ARG` has a position below
that limit, whatever tree the generator was given.
-/

namespace TinyCompile.Ir

open TinyCompile.Source

/-- Every argument has a position in the array. -/
def ArgsFit (code : List IRInstruction) : Prop :=
  ∀ inst ∈ code, inst.opcode = .arg → inst.imm.toNat < maxParamsPerFunction

/-- From instructions whose arguments fit, the computation leads to such ones, and
returns a value with `P`. -/
def Keeps {α : Type} (m : GenM α) (P : α → Prop) : Prop :=
  ∀ s, ArgsFit s.f.instructions →
    Ensures m s (fun a s' => P a ∧ ArgsFit s'.f.instructions) (fun _ => True)

section Keeps

variable {α β : Type} {m : GenM α} {P : α → Prop}

theorem keeps_pure {a : α} (h : P a) : Keeps (pure a) P := fun _ hs => ⟨h, hs⟩

theorem Keeps.bind {k : α → GenM β} {Q : β → Prop} (hm : Keeps m P)
    (hk : ∀ a, P a → Keeps (k a) Q) : Keeps (m >>= k) Q := by
  intro s hs
  rw [ensures_bind]
  exact (hm s hs).imp (fun a s' h => hk a h.1 s' h.2) fun _ h => h

theorem Keeps.mono {Q : α → Prop} (hm : Keeps m P) (h : ∀ a, P a → Q a) : Keeps m Q :=
  fun s hs => (hm s hs).imp (fun a _ ha => ⟨h a ha.1, ha.2⟩) fun _ h => h

/-- A computation that leaves the instructions alone. -/
theorem keeps_of_same (h : ∀ s, Ensures m s (fun a s' => P a ∧ s'.f.chunks = s.f.chunks)
    (fun _ => True)) : Keeps m P := by
  intro s hs
  refine (h s).imp ?_ fun _ h => h
  intro a s' ha
  refine ⟨ha.1, ?_⟩
  rwa [IRFunction.instructions, ha.2]

end Keeps

/-! ## The primitive steps -/

/-- Nothing is claimed of the returned value. -/
abbrev anyValue {α : Type} (_ : α) : Prop := True

theorem instructions_emit (f : IRFunction) (inst : IRInstruction) :
    (emit f inst).instructions = f.instructions ∨
      (emit f inst).instructions = f.instructions ++ [inst] := by
  unfold emit
  split
  · exact .inl rfl
  · exact .inr (chunkInstructions_pushTail inst f.chunks)

theorem keeps_emitInst {inst : IRInstruction}
    (h : inst.opcode = .arg → inst.imm.toNat < maxParamsPerFunction) :
    Keeps (emitInst inst) anyValue := by
  intro s hs
  refine ⟨trivial, ?_⟩
  show ArgsFit (emit s.f inst).instructions
  rcases instructions_emit s.f inst with hsame | hnew
  · rwa [hsame]
  · rw [hnew]
    intro i hi
    rcases List.mem_append.mp hi with hi | hi
    · exact hs i hi
    · rw [List.mem_singleton.mp hi]
      exact h

theorem keeps_record (e : Event) : Keeps (record e) anyValue :=
  keeps_of_same fun _ => ⟨trivial, rfl⟩

theorem keeps_giveUp (reason : Drop) : Keeps (giveUp reason) anyValue :=
  (keeps_record _).bind fun _ _ => keeps_pure trivial

theorem keeps_reportError (info : NodeInfo) (message : String) :
    Keeps (reportError info message) anyValue :=
  keeps_of_same fun _ => ⟨trivial, rfl⟩

theorem keeps_allocVreg : Keeps allocVreg anyValue := by
  refine keeps_of_same fun s => ⟨trivial, ?_⟩
  show (irAllocVreg s.f).2.chunks = s.f.chunks
  unfold irAllocVreg
  split <;> rfl

theorem keeps_newLabel : Keeps newLabel anyValue := keeps_of_same fun _ => ⟨trivial, rfl⟩

theorem keeps_newStackSlot : Keeps newStackSlot anyValue :=
  keeps_of_same fun _ => ⟨trivial, rfl⟩

theorem keeps_get : Keeps (get : GenM GenState) anyValue :=
  keeps_of_same fun _ => ⟨trivial, rfl⟩

theorem keeps_lookupSymbol (name : StringView) : Keeps (lookupSymbol name) anyValue :=
  keeps_of_same fun _ => ⟨trivial, rfl⟩

/-- A change of the symbol table alone. -/
theorem keeps_modifyTable (g : GenState → SymbolTable) :
    Keeps (modify fun s => { s with symbolTable := g s } : GenM Unit) anyValue :=
  keeps_of_same fun _ => ⟨trivial, rfl⟩

theorem keeps_addSymbol (name : StringView) (vreg : Nat) :
    Keeps (addSymbol name vreg) anyValue := by
  refine keeps_of_same fun s => ?_
  unfold addSymbol
  have hget : (get : GenM GenState) s = .ok (s, s) := rfl
  rw [ensures_bind, ensures_of_eq hget]
  split
  · exact ⟨trivial, rfl⟩
  · trivial

theorem keeps_valueTypeOf (node : ASTNode) : Keeps (valueTypeOf node) anyValue := by
  unfold valueTypeOf
  split
  · exact keeps_pure trivial
  · exact fun _ _ => trivial

/-- A fresh register for an instruction that is no argument. -/
theorem keeps_finish {inst : Nat → IRInstruction} (h : ∀ reg, (inst reg).opcode ≠ .arg) :
    Keeps (do
      let some reg ← allocVreg | giveUp .vregLimit
      emitInst (inst reg)
      return reg) anyValue := by
  refine keeps_allocVreg.bind fun reg _ => ?_
  cases reg with
  | none => exact keeps_giveUp _
  | some reg =>
    exact (keeps_emitInst fun ha => absurd ha (h reg)).bind fun _ _ => keeps_pure trivial

/-! ## Expressions -/

theorem keeps_emitArgs {pairs : List (ASTNode × Nat)} {i : Nat}
    (h : i + pairs.length ≤ maxParamsPerFunction) : Keeps (emitArgs pairs i) anyValue := by
  induction pairs generalizing i with
  | nil => exact keeps_pure trivial
  | cons p pairs ih =>
    rw [List.length_cons] at h
    have hi : (BitVec.ofNat 64 i).toNat < maxParamsPerFunction := by
      have : maxParamsPerFunction = 32 := rfl
      rw [BitVec.toNat_ofNat]
      omega
    refine (keeps_valueTypeOf _).bind fun type _ => ?_
    exact (keeps_emitInst fun _ => hi).bind fun _ _ => ih (by omega)

theorem keeps_genMisplaced (info : NodeInfo) : Keeps (genMisplaced info) anyValue :=
  (keeps_reportError _ _).bind fun _ _ => keeps_giveUp _

theorem keeps_genIdentifier (info : NodeInfo) (name : StringView) :
    Keeps (genIdentifier info name) anyValue := by
  refine (keeps_lookupSymbol name).bind fun sym _ => ?_
  cases sym with
  | none => exact (keeps_reportError _ _).bind fun _ _ => keeps_giveUp _
  | some sym =>
    refine keeps_get.bind fun s _ => (keeps_record _).bind fun _ _ => ?_
    split
    · exact keeps_finish fun _ => by simp
    · exact keeps_pure trivial

theorem unaryOpcode_ne_arg (op : UnaryOp) : unaryOpcode op ≠ .arg := by cases op <;> decide

theorem binaryOpcode_ne_arg (op : BinaryOp) (type : DataType) :
    binaryOpcode op type ≠ .arg := by
  cases op <;> simp [binaryOpcode]
  split <;> decide

/-- The registers the argument loop returns fit behind position `i`. -/
def RegsFit (i : Nat) (regs : Option (List Nat)) : Prop :=
  ∀ rs, regs = some rs → rs = [] ∨ i + rs.length ≤ maxParamsPerFunction

mutual

theorem keeps_genExpression : ∀ node : ASTNode, Keeps (genExpression node) anyValue
  | .null => by
      rw [genExpression]
      exact keeps_giveUp _
  | .number _ _ => by
      rw [genExpression]
      exact keeps_finish fun _ => by simp
  | .identifier info name => by
      rw [genExpression]
      exact keeps_genIdentifier info name
  | .call info functionName args => by
      rw [genExpression]
      refine (keeps_genArgs args 0).bind fun regs hregs => ?_
      cases regs with
      | none => exact keeps_pure trivial
      | some regs =>
        have hfit : 0 + (args.zip regs).length ≤ maxParamsPerFunction := by
          rw [List.length_zip]
          rcases hregs regs rfl with rfl | hlen
          · simp
          · omega
        exact (keeps_emitArgs hfit).bind fun _ _ => keeps_finish fun _ => by simp
  | .unary op info operand => by
      rw [genExpression]
      refine (keeps_genExpression operand).bind fun reg _ => ?_
      split
      · exact keeps_pure trivial
      · exact keeps_finish fun _ => unaryOpcode_ne_arg op
  | .binary op info left right => by
      rw [genExpression]
      refine (keeps_genExpression left).bind fun l _ => ?_
      split
      · exact keeps_pure trivial
      · refine (keeps_genExpression right).bind fun r _ => ?_
        split
        · exact keeps_pure trivial
        · refine keeps_allocVreg.bind fun reg _ => ?_
          cases reg with
          | none => exact keeps_giveUp _
          | some reg =>
            refine (keeps_valueTypeOf left).bind fun type _ => ?_
            exact (keeps_emitInst fun ha => absurd ha (binaryOpcode_ne_arg op type)).bind
              fun _ _ => keeps_pure trivial
  | .varDecl info _ _ _ => by
      rw [genExpression]
      exact keeps_genMisplaced info
  | .assignment info _ _ => by
      rw [genExpression]
      exact keeps_genMisplaced info
  | .returnStmt info _ => by
      rw [genExpression]
      exact keeps_genMisplaced info
  | .ifStmt info _ _ _ => by
      rw [genExpression]
      exact keeps_genMisplaced info
  | .whileStmt info _ _ => by
      rw [genExpression]
      exact keeps_genMisplaced info
  | .block info _ => by
      rw [genExpression]
      exact keeps_genMisplaced info
  | .function info _ _ _ _ _ => by
      rw [genExpression]
      exact keeps_genMisplaced info
  | .translationUnit info _ => by
      rw [genExpression]
      exact keeps_genMisplaced info

theorem keeps_genArgs : ∀ (args : List ASTNode) (i : Nat), Keeps (genArgs args i) (RegsFit i)
  | [], i => by
      rw [genArgs]
      refine keeps_pure fun rs h => .inl ?_
      simpa using h.symm
  | arg :: rest, i => by
      rw [genArgs]
      refine (keeps_genExpression arg).bind fun reg _ => ?_
      by_cases hroom : i ≥ maxParamsPerFunction
      · simp only [hroom, if_true]
        exact fun _ _ => trivial
      · simp only [hroom, if_false]
        split
        · exact keeps_pure fun rs h => absurd h (by simp)
        · refine (keeps_genArgs rest (i + 1)).bind fun regs hregs => ?_
          cases regs with
          | none => exact keeps_pure fun rs h => absurd h (by simp)
          | some regs =>
            refine keeps_pure fun rs h => .inr ?_
            obtain rfl : reg :: regs = rs := by simpa using h
            rw [List.length_cons]
            rcases hregs regs rfl with rfl | hlen
            · simp only [List.length_nil]
              omega
            · omega

end

/-! ## Statements -/

theorem keeps_genVarDecl (info : NodeInfo) (varName : StringView) (varType : DataType)
    (initializer : ASTNode) : Keeps (genVarDecl info varName varType initializer) anyValue := by
  have hinit : Keeps (genInitializer varType initializer) anyValue := by
    unfold genInitializer
    split
    · exact keeps_finish fun _ => by simp
    · exact keeps_genExpression initializer
  refine keeps_newStackSlot.bind fun index _ => (keeps_addSymbol _ _).bind fun _ _ =>
    (keeps_lookupSymbol _).bind fun sym _ => ?_
  have hrest : Keeps (do
      record (.declared info.addr varType index)
      let initReg ← genInitializer varType initializer
      if initReg = 0 then return ()
      emitInst { opcode := .store, type := varType, dest := index, src1 := initReg })
      anyValue := by
    refine (keeps_record _).bind fun _ _ => hinit.bind fun reg _ => ?_
    split
    · exact keeps_pure trivial
    · exact keeps_emitInst fun ha => absurd ha (by simp)
  cases sym with
  | none => exact hrest
  | some sym =>
    exact (keeps_modifyTable fun s => setIsStack s.symbolTable sym).bind fun _ _ => hrest

theorem keeps_genAssignment (info : NodeInfo) (varName : StringView) (value : ASTNode) :
    Keeps (genAssignment info varName value) anyValue := by
  refine (keeps_lookupSymbol _).bind fun sym _ => ?_
  cases sym with
  | none => exact (keeps_reportError _ _).bind fun _ _ => keeps_record _
  | some sym =>
    refine keeps_get.bind fun s _ => (keeps_record _).bind fun _ _ =>
      (keeps_genExpression value).bind fun reg _ => ?_
    split
    · exact keeps_pure trivial
    · refine keeps_get.bind fun s _ => keeps_emitInst fun ha => absurd ha ?_
      show (if _ then IROpcode.store else .mov) ≠ .arg
      split <;> simp

theorem keeps_genReturn (info : NodeInfo) (expression : ASTNode) :
    Keeps (genReturn info expression) anyValue := by
  have hvalue : Keeps (genReturned expression) anyValue := by
    unfold genReturned
    split
    · exact keeps_giveUp _
    · exact keeps_genExpression expression
  refine hvalue.bind fun reg _ => ?_
  split
  · exact keeps_pure trivial
  · exact keeps_emitInst fun ha => absurd ha (by simp)

theorem keeps_genIf {condition elseBranch : ASTNode} {genThen genElse : GenM Unit}
    (ht : Keeps genThen anyValue) (he : Keeps genElse anyValue) :
    Keeps (genIf condition elseBranch genThen genElse) anyValue := by
  refine (keeps_genExpression condition).bind fun reg _ =>
    (keeps_valueTypeOf condition).bind fun type _ => ?_
  split
  · refine keeps_newLabel.bind fun l _ => ?_
    split
    · exact keeps_pure trivial
    · exact (keeps_emitInst fun ha => absurd ha (by simp)).bind fun _ _ => ht.bind fun _ _ =>
        keeps_emitInst fun ha => absurd ha (by simp)
  · refine keeps_newLabel.bind fun l _ => keeps_newLabel.bind fun l' _ => ?_
    split
    · exact keeps_pure trivial
    · exact (keeps_emitInst fun ha => absurd ha (by simp)).bind fun _ _ => ht.bind fun _ _ =>
        (keeps_emitInst fun ha => absurd ha (by simp)).bind fun _ _ =>
        (keeps_emitInst fun ha => absurd ha (by simp)).bind fun _ _ => he.bind fun _ _ =>
        keeps_emitInst fun ha => absurd ha (by simp)

theorem keeps_genWhile {condition : ASTNode} {genBody : GenM Unit}
    (hb : Keeps genBody anyValue) : Keeps (genWhile condition genBody) anyValue := by
  refine keeps_newLabel.bind fun l _ => keeps_newLabel.bind fun l' _ =>
    (keeps_valueTypeOf condition).bind fun type _ =>
    (keeps_emitInst fun ha => absurd ha (by simp)).bind fun _ _ =>
    (keeps_genExpression condition).bind fun reg _ => ?_
  split
  · exact keeps_pure trivial
  · exact (keeps_emitInst fun ha => absurd ha (by simp)).bind fun _ _ => hb.bind fun _ _ =>
      (keeps_emitInst fun ha => absurd ha (by simp)).bind fun _ _ =>
      keeps_emitInst fun ha => absurd ha (by simp)

theorem keeps_genBlock {genStatements : GenM Unit} (h : Keeps genStatements anyValue) :
    Keeps (genBlock genStatements) anyValue :=
  keeps_get.bind fun s _ => h.bind fun _ _ =>
    keeps_modifyTable fun s' => symbolTableRestore s'.symbolTable s.symbolTable.changes.length

/-- An expression in statement position. -/
theorem keeps_discard {node : ASTNode} :
    Keeps (discard (genExpression node)) anyValue := by
  have hdiscard : discard (genExpression node) = genExpression node >>= fun _ => pure () := by
    rw [bind_pure_comp]
    rfl
  rw [hdiscard]
  exact (keeps_genExpression node).bind fun _ _ => keeps_pure trivial

mutual

theorem keeps_genStatement : ∀ node : ASTNode, Keeps (genStatement node) anyValue
  | .null => by
      rw [genStatement]
      exact keeps_pure trivial
  | .varDecl info varName varType initializer => by
      rw [genStatement]
      exact keeps_genVarDecl info varName varType initializer
  | .assignment info varName value => by
      rw [genStatement]
      exact keeps_genAssignment info varName value
  | .returnStmt info expression => by
      rw [genStatement]
      exact keeps_genReturn info expression
  | .block _ statements => by
      rw [genStatement]
      exact keeps_genBlock (keeps_genStatements statements)
  | .ifStmt _ condition thenBranch elseBranch => by
      rw [genStatement]
      exact keeps_genIf (keeps_genStatement thenBranch) (keeps_genStatement elseBranch)
  | .whileStmt _ condition body => by
      rw [genStatement]
      exact keeps_genWhile (keeps_genStatement body)
  | .number _ _ => by
      rw [genStatement] <;> first | exact keeps_discard | simp
  | .identifier _ _ => by
      rw [genStatement] <;> first | exact keeps_discard | simp
  | .binary _ _ _ _ => by
      rw [genStatement] <;> first | exact keeps_discard | simp
  | .unary _ _ _ => by
      rw [genStatement] <;> first | exact keeps_discard | simp
  | .call _ _ _ => by
      rw [genStatement] <;> first | exact keeps_discard | simp
  | .function _ _ _ _ _ _ => by
      rw [genStatement] <;> first | exact keeps_discard | simp
  | .translationUnit _ _ => by
      rw [genStatement] <;> first | exact keeps_discard | simp

theorem keeps_genStatements : ∀ nodes : List ASTNode, Keeps (genStatements nodes) anyValue
  | [] => by
      rw [genStatements]
      exact keeps_pure trivial
  | stmt :: rest => by
      rw [genStatements]
      exact (keeps_genStatement stmt).bind fun _ _ => keeps_genStatements rest

end

/-! ## Functions -/

theorem keeps_genParams (params : List Parameter) : Keeps (genParams params) anyValue := by
  induction params with
  | nil => exact keeps_pure trivial
  | cons param rest ih =>
    rw [genParams]
    refine keeps_allocVreg.bind fun reg _ => ?_
    cases reg with
    | none => exact (keeps_record _).bind fun _ _ => keeps_pure trivial
    | some reg => exact (keeps_addSymbol _ _).bind fun _ _ => ih

theorem keeps_genRoot (root : ASTNode) : Keeps (genRoot root) anyValue := by
  have hexpr : ∀ node : ASTNode, Keeps (do
      let resultReg ← genExpression node
      if resultReg = 0 then return false
      let type ← valueTypeOf node
      emitInst { opcode := .ret, type := type, src1 := resultReg }
      return true) anyValue := by
    intro node
    refine (keeps_genExpression node).bind fun reg _ => ?_
    split
    · exact keeps_pure trivial
    · exact (keeps_valueTypeOf node).bind fun type _ =>
        (keeps_emitInst fun ha => absurd ha (by simp)).bind fun _ _ => keeps_pure trivial
  cases root with
  | function info name returnType params body isPrototype =>
    rw [genRoot]
    refine (keeps_genParams params).bind fun generated _ => ?_
    split
    · cases body with
      | block _ statements =>
        exact (keeps_genStatements statements).bind fun _ _ => keeps_pure trivial
      | _ => exact keeps_pure trivial
    · exact keeps_pure trivial
  | block info statements =>
    rw [genRoot]
    exact (keeps_genStatements statements).bind fun _ _ => keeps_pure trivial
  | _ => exact hexpr _

/-- The arguments of a generated function fit. -/
theorem irGen_argsFit {fresh : IRFunction} {root : ASTNode} {errors : ErrorContext}
    {filename : Option String} {s : GenState}
    (h : irGen fresh root errors filename = .ok (true, s)) : ArgsFit s.f.instructions := by
  have hnull : root.isNull = false := by
    cases hroot : root.isNull with
    | false => rfl
    | true => simp [irGen, hroot] at h
  rw [irGen_eq hnull] at h
  have hempty : ArgsFit (initState fresh root errors filename).f.instructions :=
    fun _ hi => absurd hi List.not_mem_nil
  have hkeeps := keeps_genRoot root _ hempty
  cases hrun : genRoot root (initState fresh root errors filename) with
  | error stop =>
    rw [hrun] at h
    exact absurd h (by simp [Except.map])
  | ok p =>
    obtain ⟨generated, s₁⟩ := p
    rw [hrun] at h
    have hlimit : checkLimit generated s₁ = (true, s) := by simpa [Except.map] using h
    have hfit := (hkeeps.of_ok hrun).2
    unfold checkLimit at hlimit
    split at hlimit
    · exact absurd hlimit (by simp)
    · obtain ⟨-, rfl⟩ := Prod.mk.inj hlimit
      exact hfit

end TinyCompile.Ir
