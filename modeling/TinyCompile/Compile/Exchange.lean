import TinyCompile.Compile.Run
import TinyCompile.Ir.Exchange
import TinyCompile.Parser.Whole
import TinyCompile.Semantic.Complete

set_option autoImplicit false

/-!
# Compile: the order of two operands

What becomes of a program in which the operands of a commutative operator are exchanged.
The type of the result is that of the left operand where the operator is bitwise, or where
the operands have the same size, and a right shift of the result goes by that type: the
order matters exactly where the types in the two orders differ in size or sign.
-/

namespace TinyCompile.Compile

open TinyCompile.Machine TinyCompile.Source TinyCompile.Logic TinyCompile.Semantic
  TinyCompile.Ir

/-! ## Programs with exchanged operands -/

/-- A file in which the operands of the binary operators at an address are exchanged. -/
def CompilationUnit.exchange (addr : Nat) (unit : CompilationUnit) : CompilationUnit :=
  { unit with ast := unit.ast.exchange addr }

/-- A program in which the operands of the binary operators at an address are exchanged. -/
def CompilationContext.exchange (addr : Nat) (ctx : CompilationContext) : CompilationContext :=
  { ctx with units := ctx.units.map (·.exchange addr) }

/-- The nodes of some files. -/
def nodesOf (units : List CompilationUnit) : List ASTNode := units.flatMap (·.ast.subnodes)

/-- No part of a definition is missing, as after parsing without errors. -/
def CompilationUnit.Complete (unit : CompilationUnit) : Prop :=
  unit.parsedOk = true → ∀ func ∈ unit.declarations, isDefinition func = true →
    func.CompleteFunction

/-- A program, with types in `ctx₁`, in which operands are exchanged is accepted, its functions
are generated when those of the program are, and every call returns what it returned. -/
def KeepsResults (ctx ctx₁ : CompilationContext) (addr : Nat) : Prop :=
  ∃ ctx₂, compileAnalyzeAll (ctx.exchange addr) = .ok (ctx₂, true) ∧
    ∀ fresh program, Generates fresh ctx₁ program →
      ∃ program', Generates fresh ctx₂ program' ∧
        ∀ before call v,
          CallReturns program' before call v ↔ CallReturns program before call v

/-- The order of the operands of `op` does not matter between operands of two types, in any
accepted program. -/
def OrderIrrelevant (op : BinaryOp) (leftType rightType : DataType) : Prop :=
  ∀ (ctx ctx₁ : CompilationContext) (addr : Nat), (∀ unit ∈ ctx.units, unit.Complete) →
    compileAnalyzeAll ctx = .ok (ctx₁, true) →
    OccursIn addr op leftType rightType (nodesOf ctx₁.units) → KeepsResults ctx ctx₁ addr

/-! ## Parsed programs -/

theorem parseFile_errors {unit unit' : CompilationUnit} {arena arena' : Nat}
    {errors errors' : ErrorContext}
    (h : parseFile unit arena errors = .ok (unit', arena', errors')) :
    Adds errors errors' := by
  obtain ⟨⟨ast, s⟩, hparse, hend⟩ := ok_of_bind h
  cases hend
  have htokens := Parser.parserInit_tokens (Parser.tokenStream unit.file.data) unit.file.name
    arena errors
  have hlater := wp_of_ok hparse (Parser.parseUnit_ends
    (by rw [htokens]; exact Nat.lt_succ_self _) (show 0 < Parser.maxExpressionDepth by decide))
  exact hlater.errors

theorem parseFiles_errors {units : List CompilationUnit} {arena : Nat} {errors : ErrorContext}
    {ctx : CompilationContext} {ok : Bool} (h : parseFiles units arena errors = .ok (ctx, ok)) :
    Adds errors ctx.errors := by
  induction units generalizing arena errors ctx ok with
  | nil =>
    cases h
    exact .refl _
  | cons unit units ih =>
    obtain ⟨⟨unit', arena', errors'⟩, hunit, hrest⟩ := ok_of_bind h
    obtain ⟨⟨ctx', allOk⟩, hunits, hctx⟩ := ok_of_bind hrest
    cases hctx
    exact (parseFile_errors hunit).trans (ih hunits :)

/-- A file that is parsed without an error is complete. -/
theorem parseFile_complete {unit unit' : CompilationUnit} {arena arena' : Nat}
    {errors errors' : ErrorContext}
    (h : parseFile unit arena errors = .ok (unit', arena', errors'))
    (hclean : errors'.nodes = errors.nodes) : unit'.Complete := by
  obtain ⟨⟨ast, s⟩, hparse, hend⟩ := ok_of_bind h
  cases hend
  obtain ⟨u, hu, hderives, -⟩ := Parser.parserParse_sound hparse hclean
  intro _ func hfunc hdefinition
  cases ast with
  | translationUnit info declarations =>
    obtain ⟨f, -, hf⟩ := Parser.mem_of_functions hu hfunc
    refine hderives.complete hu hfunc hf fun hbody => ?_
    cases func with
    | function info' name returnType params body isPrototype =>
      have hproto : isPrototype = false := by simpa [isDefinition] using hdefinition
      subst hproto
      obtain ⟨stmts, -, rfl⟩ := Option.map_eq_some_iff.mp hf
      cases hbody
    | _ => cases hf
  | _ => cases hu

/-- Files that are parsed without an error are complete. -/
theorem complete_of_parse {units : List CompilationUnit} {arena : Nat} {errors : ErrorContext}
    {ctx : CompilationContext} {ok : Bool} (h : parseFiles units arena errors = .ok (ctx, ok))
    (hclean : ctx.errors.nodes = errors.nodes) : ∀ unit ∈ ctx.units, unit.Complete := by
  induction units generalizing arena errors ctx ok with
  | nil =>
    cases h
    exact nofun
  | cons unit units ih =>
    obtain ⟨⟨unit', arena', errors'⟩, hunit, hrest⟩ := ok_of_bind h
    obtain ⟨⟨ctx', allOk⟩, hunits, hctx⟩ := ok_of_bind hrest
    cases hctx
    have hfirst := parseFile_errors hunit
    have hlater := parseFiles_errors hunits
    obtain ⟨hsame, hsame'⟩ := (hfirst.nodes_iff hlater).mp hclean
    intro other hother
    rcases List.mem_cons.mp hother with rfl | hmem
    · exact parseFile_complete hunit hsame
    · exact ih hunits hsame' other hmem

/-! ## Collecting -/

section

variable (addr : Nat)

theorem declare_exchange (global : GlobalScope) (errors : ErrorContext) (func : ASTNode)
    (filename : String) :
    semanticGlobalDeclareFunction global errors (func.exchange addr) filename =
      semanticGlobalDeclareFunction global errors func filename := by
  cases func with
  | binary op info left right =>
    unfold ASTNode.exchange
    split <;> rfl
  | _ => rfl

theorem isFunction_exchange (func : ASTNode) :
    isFunction (func.exchange addr) = isFunction func := by
  cases func with
  | binary op info left right =>
    unfold ASTNode.exchange
    split <;> rfl
  | _ => rfl

theorem collectDeclarations_exchange (filename : String) (nodes : List ASTNode)
    (global : GlobalScope) (errors : ErrorContext) :
    collectDeclarations filename (exchangeAll addr nodes) global errors =
      collectDeclarations filename nodes global errors := by
  induction nodes generalizing global errors with
  | nil => rfl
  | cons node nodes ih =>
    simp only [exchangeAll, collectDeclarations, isNull_exchange, isFunction_exchange,
      declare_exchange, ih]

theorem declarationsOf_exchange (ast : ASTNode) :
    declarationsOf (ast.exchange addr) = (declarationsOf ast).map (exchangeAll addr) := by
  cases ast with
  | binary op info left right =>
    unfold ASTNode.exchange
    split <;> rfl
  | _ => rfl

theorem collectUnits_exchange (units : List CompilationUnit) (global : GlobalScope)
    (errors : ErrorContext) :
    collectUnits (units.map (·.exchange addr)) global errors =
      collectUnits units global errors := by
  induction units generalizing global errors with
  | nil => rfl
  | cons unit units ih =>
    rw [List.map_cons, collectUnits, collectUnits]
    show (if !unit.parsedOk then _ else _) = _
    split
    · exact ih global errors
    · show (declarationsOf (unit.ast.exchange addr) >>= _) = _
      rw [declarationsOf_exchange]
      cases declarationsOf unit.ast with
      | error e => rfl
      | ok declarations =>
        show (collectDeclarations unit.file.name (exchangeAll addr declarations) global errors
          >>= _) = _
        rw [collectDeclarations_exchange]
        simp only [ih]
        rfl

end

/-! ## Analyzing -/

/-- Two files with types are alike. -/
structure UnitLike (unit unit' : CompilationUnit) : Prop where
  file : unit'.file = unit.file
  parsedOk : unit'.parsedOk = unit.parsedOk
  ast : Like unit.ast unit'.ast

section

variable {addr : Nat} {op : BinaryOp} {leftType rightType : DataType}

theorem analyzeUnit_exchange (hop : commutes op = true)
    (hresult : SameResult op leftType rightType) {unit unit₁ : CompilationUnit}
    {global : GlobalScope} {errors errors₁ : ErrorContext} (errors' : ErrorContext)
    (h : analyzeUnit unit global errors = .ok (unit₁, errors₁, true))
    (hoccurs : OccursIn addr op leftType rightType unit₁.ast.subnodes) :
    ∃ unit₂ errors₂, analyzeUnit (unit.exchange addr) global errors' =
      .ok (unit₂, errors₂, true) ∧ UnitLike unit₁ unit₂ := by
  unfold analyzeUnit at h
  cases hast : unit.ast with
  | translationUnit info declarations =>
    simp only [hast] at h
    obtain ⟨⟨⟨declarations₁, ok⟩, sa⟩, hrun, hend⟩ := ok_of_bind h
    cases hend
    have hsame : Same (.init unit.file.name errors global) (.init unit.file.name errors' global) :=
      ⟨errors', [], rfl⟩
    obtain ⟨declarations₂, t, hrun', -, hlike⟩ :=
      semanticAnalyze_copies hop hresult declarations _ _ _ _ hsame hrun hoccurs.tail
    refine ⟨{ unit with ast := .translationUnit info declarations₂ }, t.errors, ?_, rfl, rfl,
      .translationUnit hlike⟩
    unfold analyzeUnit CompilationUnit.exchange
    simp only [hast, ASTNode.exchange]
    have hrun'' : (semanticAnalyze (exchangeAll addr declarations)).run
        (.init unit.file.name errors' global) = .ok ((declarations₂, true), t) := hrun'
    rw [hrun'']
    rfl
  | _ =>
    simp only [hast] at h
    cases h

theorem analyzeUnits_cons (unit : CompilationUnit) (units : List CompilationUnit)
    (global : GlobalScope) (errors : ErrorContext) :
    analyzeUnits (unit :: units) global errors =
      (if !unit.parsedOk || unit.ast.isNull then pure (unit, errors, true)
        else analyzeUnit unit global errors) >>= fun r =>
          analyzeUnits units global r.2.1 >>= fun r' =>
            pure (r.1 :: r'.1, r'.2.1, r.2.2 && r'.2.2) := by
  rw [analyzeUnits]
  split <;> rfl

theorem analyzeUnits_exchange (hop : commutes op = true)
    (hresult : SameResult op leftType rightType) {units units₁ : List CompilationUnit}
    {global : GlobalScope} {errors errors₁ : ErrorContext} (errors' : ErrorContext)
    (h : analyzeUnits units global errors = .ok (units₁, errors₁, true))
    (hoccurs : OccursIn addr op leftType rightType (nodesOf units₁)) :
    ∃ units₂ errors₂, analyzeUnits (units.map (·.exchange addr)) global errors' =
      .ok (units₂, errors₂, true) ∧ List.Forall₂ UnitLike units₁ units₂ := by
  induction units generalizing units₁ errors errors' with
  | nil =>
    cases h
    exact ⟨[], errors', rfl, .nil⟩
  | cons unit units ih =>
    rw [analyzeUnits_cons] at h
    obtain ⟨⟨unit₁, errors₂, ok⟩, hunit, hrest⟩ := ok_of_bind h
    obtain ⟨⟨units₁', errors₃, allOk⟩, hunits, hend⟩ := ok_of_bind hrest
    simp only [pure, Except.pure, Except.ok.injEq, Prod.mk.injEq, Bool.and_eq_true] at hend
    obtain ⟨rfl, rfl, rfl, rfl⟩ := hend
    have hfirst : OccursIn addr op leftType rightType unit₁.ast.subnodes := hoccurs.left
    have hunit' : ∃ unit₂ errors₂', (if !(unit.exchange addr).parsedOk ||
        (unit.exchange addr).ast.isNull then pure (unit.exchange addr, errors', true)
        else analyzeUnit (unit.exchange addr) global errors') = .ok (unit₂, errors₂', true) ∧
          UnitLike unit₁ unit₂ := by
      have hcond : (!(unit.exchange addr).parsedOk || (unit.exchange addr).ast.isNull) =
          (!unit.parsedOk || unit.ast.isNull) := by
        show (!unit.parsedOk || (unit.ast.exchange addr).isNull) = _
        rw [isNull_exchange]
      rw [hcond]
      split at hunit
      · rename_i hskip
        cases hunit
        rw [if_pos hskip]
        exact ⟨_, _, rfl, rfl, rfl, like_exchange hop hfirst⟩
      · rename_i hskip
        rw [if_neg hskip]
        exact analyzeUnit_exchange hop hresult errors' hunit hfirst
    obtain ⟨unit₂, errors₂', hunit₂, hlike⟩ := hunit'
    obtain ⟨units₂, errors₃', hunits₂, hlikes⟩ := ih errors₂' hunits hoccurs.right
    refine ⟨unit₂ :: units₂, errors₃', ?_, .cons hlike hlikes⟩
    rw [List.map_cons, analyzeUnits_cons, hunit₂]
    show (analyzeUnits _ global errors₂' >>= _) = _
    rw [hunits₂]
    rfl

/-- A program with exchanged operands is accepted, and its files are alike. -/
theorem compileAnalyzeAll_exchange (hop : commutes op = true)
    (hresult : SameResult op leftType rightType) {ctx ctx₁ : CompilationContext}
    (h : compileAnalyzeAll ctx = .ok (ctx₁, true))
    (hoccurs : OccursIn addr op leftType rightType (nodesOf ctx₁.units)) :
    ∃ ctx₂, compileAnalyzeAll (ctx.exchange addr) = .ok (ctx₂, true) ∧
      List.Forall₂ UnitLike ctx₁.units ctx₂.units := by
  unfold compileAnalyzeAll at h
  obtain ⟨⟨global, errors, allOk⟩, hcollect, hrest⟩ := ok_of_bind h
  have hcollect' : collectUnits (ctx.exchange addr).units .init (ctx.exchange addr).errors =
      .ok (global, errors, allOk) := (collectUnits_exchange addr ctx.units _ _).trans hcollect
  cases allOk with
  | false => cases hrest
  | true =>
    obtain ⟨⟨units₁, errors₁, ok⟩, hunits, hend⟩ := ok_of_bind hrest
    cases hend
    obtain ⟨units₂, errors₂, hunits', hlikes⟩ :=
      analyzeUnits_exchange hop hresult errors hunits hoccurs
    refine ⟨{ ctx.exchange addr with units := units₂, errors := errors₂ }, ?_, hlikes⟩
    unfold compileAnalyzeAll
    rw [hcollect']
    show (analyzeUnits (ctx.units.map (·.exchange addr)) global errors >>= _) = _
    rw [hunits']
    rfl

end

/-! ## No part is lost -/

theorem isDefinition_types {Γ : Context} {node node' : ASTNode} {uses : Uses}
    (h : TypesDeclaration Γ node node' uses) : isDefinition node' = isDefinition node := by
  cases h <;> rfl

theorem declarations_complete {Γ : Context} {nodes nodes' : List ASTNode}
    (h : TypesDeclarations Γ nodes nodes')
    (hcomplete : ∀ func ∈ nodes, isDefinition func = true → func.CompleteFunction) :
    ∀ func ∈ nodes', isDefinition func = true → func.CompleteFunction := by
  induction h with
  | nil => exact nofun
  | cons hnode _ ih =>
    obtain ⟨uses, hnode⟩ := hnode
    rw [List.forall_mem_cons] at hcomplete ⊢
    exact ⟨fun h => hnode.complete (hcomplete.1 ((isDefinition_types hnode).symm.trans h)),
      ih hcomplete.2⟩

theorem analyzeUnits_complete {units units₁ : List CompilationUnit} {global : GlobalScope}
    {errors errors₁ : ErrorContext}
    (h : analyzeUnits units global errors = .ok (units₁, errors₁, true))
    (hcomplete : ∀ unit ∈ units, unit.Complete) : ∀ unit ∈ units₁, unit.Complete := by
  induction units generalizing units₁ errors with
  | nil =>
    cases h
    exact nofun
  | cons unit units ih =>
    rw [analyzeUnits_cons] at h
    obtain ⟨⟨unit₁, errors₂, ok⟩, hunit, hrest⟩ := ok_of_bind h
    obtain ⟨⟨units₁', errors₃, allOk⟩, hunits, hend⟩ := ok_of_bind hrest
    simp only [pure, Except.pure, Except.ok.injEq, Prod.mk.injEq, Bool.and_eq_true] at hend
    obtain ⟨rfl, rfl, rfl, rfl⟩ := hend
    rw [List.forall_mem_cons] at hcomplete
    refine List.forall_mem_cons.mpr ⟨?_, ih hunits hcomplete.2⟩
    split at hunit
    · cases hunit
      exact hcomplete.1
    · unfold analyzeUnit at hunit
      split at hunit
      · rename_i info declarations hast
        obtain ⟨⟨⟨declarations', ok⟩, sa⟩, hrun, hend⟩ := ok_of_bind hunit
        cases hend
        obtain ⟨visible, htypes⟩ := wp_of_ok hrun
          (semanticAnalyze_spec declarations unit.file.name errors global) rfl
        intro hparsed
        refine declarations_complete htypes ?_
        have hfirst := hcomplete.1 hparsed
        unfold CompilationUnit.declarations at hfirst
        rwa [hast] at hfirst
      · cases hunit

theorem compileAnalyzeAll_complete {ctx ctx₁ : CompilationContext}
    (h : compileAnalyzeAll ctx = .ok (ctx₁, true)) (hcomplete : ∀ unit ∈ ctx.units, unit.Complete) :
    ∀ d ∈ ctx₁.definitions, d.2.CompleteFunction := by
  unfold compileAnalyzeAll at h
  obtain ⟨⟨global, errors, allOk⟩, hcollect, hrest⟩ := ok_of_bind h
  cases allOk with
  | false => cases hrest
  | true =>
    obtain ⟨⟨units₁, errors₁, ok⟩, hunits, hend⟩ := ok_of_bind hrest
    cases hend
    intro d hmem
    obtain ⟨unit, hunit, hd⟩ := List.mem_flatMap.mp hmem
    split at hd
    · rename_i hparsed
      obtain ⟨func, hfunc, rfl⟩ := List.mem_map.mp hd
      obtain ⟨hdeclared, hdefinition⟩ := List.mem_filter.mp hfunc
      exact analyzeUnits_complete hunits hcomplete unit hunit hparsed func hdeclared hdefinition
    · cases hd

/-! ## Generating -/

/-- Two functions with their files are alike. -/
def DefinitionLike (d d' : String × ASTNode) : Prop := d'.1 = d.1 ∧ Like d.2 d'.2

theorem isDefinition_like {func func' : ASTNode} (h : Like func func') :
    isDefinition func' = isDefinition func := by
  cases h <;> rfl

theorem functionName_like {func func' : ASTNode} (h : Like func func') :
    functionName func' = functionName func := by
  cases h <;> rfl

theorem definitions_declarations {filename : String} {nodes nodes' : List ASTNode}
    (h : LikeAll nodes nodes') :
    List.Forall₂ DefinitionLike ((nodes.filter isDefinition).map fun func => (filename, func))
      ((nodes'.filter isDefinition).map fun func => (filename, func)) := by
  induction nodes generalizing nodes' with
  | nil =>
    cases h
    exact .nil
  | cons node nodes ih =>
    cases h with
    | cons hnode hrest =>
      rw [List.filter_cons, List.filter_cons, isDefinition_like hnode]
      split
      · exact .cons ⟨rfl, hnode⟩ (ih hrest)
      · exact ih hrest

theorem declarations_like {unit unit' : CompilationUnit} (h : UnitLike unit unit') :
    LikeAll unit.declarations unit'.declarations := by
  have hast := h.ast
  unfold CompilationUnit.declarations
  generalize unit.ast = ast at hast ⊢
  generalize unit'.ast = ast' at hast ⊢
  cases hast with
  | refl => exact LikeAll.refl _
  | translationUnit hdeclarations => exact hdeclarations
  | _ => exact .nil

theorem definitions_like {ctx ctx' : CompilationContext}
    (h : List.Forall₂ UnitLike ctx.units ctx'.units) :
    List.Forall₂ DefinitionLike ctx.definitions ctx'.definitions := by
  unfold CompilationContext.definitions
  generalize ctx.units = units at h ⊢
  generalize ctx'.units = units' at h ⊢
  induction h with
  | nil => exact .nil
  | @cons unit unit' units units' hunit _ ih =>
    rw [List.flatMap_cons, List.flatMap_cons, hunit.parsedOk, hunit.file]
    refine List.rel_append ?_ ih
    split
    · exact definitions_declarations (declarations_like hunit)
    · exact .nil

/-- Generating removes no error. -/
theorem generateAll_errors {fresh : Nat → IRFunction} {ds : List (String × ASTNode)} {i : Nat}
    {errors errors' : ErrorContext} {program : List Generated} {ok : Bool}
    (h : generateAll fresh ds i errors = .ok (program, errors', ok)) :
    Adds errors errors' := by
  induction ds generalizing i errors program ok with
  | nil =>
    cases h
    exact .refl _
  | cons d rest ih =>
    unfold generateAll at h
    obtain ⟨⟨generated, s⟩, hrun, hnext⟩ := ok_of_bind h
    have hfirst := irGen_errors hrun
    cases generated with
    | true =>
      obtain ⟨⟨program', errors₁, ok'⟩, hrest, hend⟩ := ok_of_bind hnext
      cases hend
      exact hfirst.trans (ih hrest)
    | false =>
      cases hnext
      exact hfirst.trans (adds_error _ .system (by decide) _ _ _ _)

/-- Functions that are alike are generated alike. -/
theorem generateAll_like {fresh : Nat → IRFunction} {ds ds' : List (String × ASTNode)} {i : Nat}
    {errors : ErrorContext} {program : List Generated} (errors' : ErrorContext)
    (hds : List.Forall₂ DefinitionLike ds ds') (hcomplete : ∀ d ∈ ds, d.2.CompleteFunction)
    (h : generateAll fresh ds i errors = .ok (program, errors, true)) :
    ∃ program', generateAll fresh ds' i errors' = .ok (program', errors', true) ∧
      List.Forall₂ SameFunction program program' := by
  induction hds generalizing i program with
  | nil =>
    cases h
    exact ⟨[], rfl, .nil⟩
  | @cons d d' rest rest' hd _ ih =>
    obtain ⟨filename, func⟩ := d
    obtain ⟨filename', func'⟩ := d'
    obtain ⟨rfl, hlike⟩ := hd
    unfold generateAll at h
    obtain ⟨⟨generated, s⟩, hrun, hnext⟩ := ok_of_bind h
    cases generated with
    | false => cases hnext
    | true =>
      obtain ⟨⟨program₁, errors₁, ok⟩, hrest, hend⟩ := ok_of_bind hnext
      cases hend
      have hle := (generateAll_errors hrest).kept.length_le
      have hgen := (irGen_returns hrun).1
      have hunreported : Unreported (lowerRoot (fresh i).stackCount func).history :=
        fun _ hmem => drops_of_length (hgen.errors ▸ hle) hmem
      have hsame : s.f.errors = errors :=
        hgen.errors.trans (noteHistory_unreported hunreported _ _ _)
      have hfunc := hcomplete _ (List.mem_cons_self)
      obtain ⟨s', hrun', herrors, hreturns⟩ := irGen_like hlike hfunc hrun hsame errors'
      rw [hsame] at hrest
      obtain ⟨program', hrest', hprogram⟩ :=
        ih (fun d hd => hcomplete d (List.mem_cons_of_mem _ hd)) hrest
      refine ⟨⟨functionName func', s'.f.instructions⟩ :: program', ?_,
        .cons ⟨functionName_like hlike, hreturns⟩ hprogram⟩
      unfold generateAll
      rw [hrun']
      show (generateAll fresh rest' (i + 1) s'.f.errors >>= _) = _
      rw [herrors, hrest']
      rfl

/-! ## The order of the operands -/

/-- Where the types in the two orders have the same size and sign, the order is irrelevant. -/
theorem orderIrrelevant_of_sameResult {op : BinaryOp} {leftType rightType : DataType}
    (hop : commutes op = true) (hresult : SameResult op leftType rightType) :
    OrderIrrelevant op leftType rightType := by
  intro ctx ctx₁ addr hcomplete hanalyze hoccurs
  obtain ⟨ctx₂, hanalyze', hunits⟩ := compileAnalyzeAll_exchange hop hresult hanalyze hoccurs
  refine ⟨ctx₂, hanalyze', fun fresh program hgenerates => ?_⟩
  obtain ⟨program', hgenerates', hsame⟩ := generateAll_like ctx₂.errors
    (definitions_like hunits) (compileAnalyzeAll_complete hanalyze hcomplete) hgenerates
  exact ⟨program', hgenerates', callReturns_iff hsame⟩

end TinyCompile.Compile
