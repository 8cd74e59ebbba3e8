import TinyCompile.Compile.Parse
import TinyCompile.Semantic.Void

set_option autoImplicit false

/-!
# Compile: analyzing all files

`compile_analyze_all` of `srcs/compile/compile.c`.  All functions are declared before any
body is analyzed.  The global scope is that of `compile_ctx_init`, which nothing else
uses.
-/

namespace TinyCompile.Compile

open TinyCompile.Source TinyCompile.Logic TinyCompile.Semantic

/-- `unit->ast->translation_unit`. -/
def declarationsOf : ASTNode → Except Semantic.Stop (List ASTNode)
  | .translationUnit _ declarations => return declarations
  | .null => throw .nullPointer
  | _ => throw .wrongNode

/-- `AST_FUNCTION` is the type of a node. -/
def isFunction : ASTNode → Bool
  | .function _ _ _ _ _ _ => true
  | _ => false

/-- The loop over the declarations of a unit in the first half of `compile_analyze_all`. -/
def collectDeclarations (filename : String) :
    List ASTNode → GlobalScope → ErrorContext →
      Except Semantic.Stop (GlobalScope × ErrorContext × Bool)
  | [], global, errors => return (global, errors, true)
  | func :: rest, global, errors => do
      if func.isNull then throw .nullPointer
      let (global, errors, ok) :=
        if isFunction func then semanticGlobalDeclareFunction global errors func filename
        else (global, errors, true)
      let (global, errors, allOk) ← collectDeclarations filename rest global errors
      return (global, errors, ok && allOk)

/-- The first loop of `compile_analyze_all`. -/
def collectUnits : List CompilationUnit → GlobalScope → ErrorContext →
    Except Semantic.Stop (GlobalScope × ErrorContext × Bool)
  | [], global, errors => return (global, errors, true)
  | unit :: units, global, errors => do
      if !unit.parsedOk then collectUnits units global errors
      else
        let declarations ← declarationsOf unit.ast
        let (global, errors, ok) ←
          collectDeclarations unit.file.name declarations global errors
        let (global, errors, allOk) ← collectUnits units global errors
        return (global, errors, ok && allOk)

/-- `semantic_analyze` on a unit: the unit with types, and what was reported. -/
def analyzeUnit (unit : CompilationUnit) (global : GlobalScope) (errors : ErrorContext) :
    Except Semantic.Stop (CompilationUnit × ErrorContext × Bool) :=
  match unit.ast with
  | .translationUnit info declarations => do
      let ((declarations, ok), sa) ←
        (semanticAnalyze declarations).run (.init unit.file.name errors global)
      return ({ unit with ast := .translationUnit info declarations }, sa.errors, ok)
  | _ => throw .wrongNode

/-- The second loop of `compile_analyze_all`. -/
def analyzeUnits : List CompilationUnit → GlobalScope → ErrorContext →
    Except Semantic.Stop (List CompilationUnit × ErrorContext × Bool)
  | [], _, errors => return ([], errors, true)
  | unit :: units, global, errors => do
      let (unit, errors, ok) ←
        if !unit.parsedOk || unit.ast.isNull then pure (unit, errors, true)
        else analyzeUnit unit global errors
      let (units, errors, allOk) ← analyzeUnits units global errors
      return (unit :: units, errors, ok && allOk)

/-- `compile_analyze_all`. -/
def compileAnalyzeAll (ctx : CompilationContext) :
    Except Semantic.Stop (CompilationContext × Bool) := do
  let (global, errors, allOk) ← collectUnits ctx.units .init ctx.errors
  if !allOk then return ({ ctx with errors := errors }, false)
  let (units, errors, allOk) ← analyzeUnits ctx.units global errors
  return ({ ctx with units := units, errors := errors }, allOk)

/-- The program with types, if it is parsed and accepted. -/
def accepted (ctx : CompilationContext) : Option CompilationContext :=
  match compileParseAll ctx with
  | .ok (ctx, true) =>
      match compileAnalyzeAll ctx with
      | .ok (ctx', true) => some ctx'
      | _ => none
  | _ => none

theorem accepted_eq_some {ctx₀ ctx' : CompilationContext} (h : accepted ctx₀ = some ctx') :
    ∃ ctx, compileParseAll ctx₀ = .ok (ctx, true) ∧ compileAnalyzeAll ctx = .ok (ctx', true) := by
  unfold accepted at h
  split at h
  · rename_i ctx hparse
    split at h
    · rename_i ctx'' hanalyze
      cases h
      exact ⟨ctx, hparse, hanalyze⟩
    · cases h
  · cases h

/-! ## What parsing leaves -/

/-- Parsing that reports success leaves a tree in every unit. -/
theorem parseFiles_parsed {units : List CompilationUnit} {arena : Nat} {errors : ErrorContext}
    {ctx : CompilationContext} (h : parseFiles units arena errors = .ok (ctx, true)) :
    ∀ unit ∈ ctx.units,
      unit.parsedOk = true ∧ unit.ast.isNull = false ∧ Parser.BareUnit unit.ast := by
  induction units generalizing arena errors ctx with
  | nil =>
    cases h
    exact nofun
  | cons unit units ih =>
    unfold parseFiles at h
    obtain ⟨⟨unit', arena', errors'⟩, hunit, hrest⟩ := ok_of_bind h
    obtain ⟨⟨ctx', allOk⟩, hunits, hctx⟩ := ok_of_bind hrest
    unfold parseFile at hunit
    obtain ⟨⟨ast, s⟩, hparse, hunit'⟩ := ok_of_bind hunit
    cases hunit'
    simp only [pure, Except.pure, Except.ok.injEq, Prod.mk.injEq, Bool.and_eq_true,
      Bool.not_eq_true'] at hctx
    obtain ⟨rfl, hnull, rfl⟩ := hctx
    intro other hother
    rcases List.mem_cons.mp hother with rfl | hmem
    · exact ⟨by simp [hnull], hnull, Parser.parserParse_bare hparse⟩
    · exact ih hunits other hmem

/-! ## What collecting declares -/

/-- The declarations of a unit. -/
def CompilationUnit.declarations (unit : CompilationUnit) : List ASTNode :=
  match unit.ast with
  | .translationUnit _ declarations => declarations
  | _ => []

/-- The return type of a declaration of `name`. -/
def declaredType (name : StringView) : ASTNode → Option DataType
  | .function _ functionName returnType _ _ _ =>
      if functionName = name then some returnType else none
  | _ => none

/-- The return type of the first declaration of a name in a program. -/
def CompilationContext.functionType (ctx : CompilationContext) (name : StringView) :
    Option DataType :=
  (ctx.units.flatMap (·.declarations)).findSome? (declaredType name)

/-- What is collected from the declarations of a unit. -/
theorem collectDeclarations_returnType {filename : String} {nodes : List ASTNode}
    {global global' : GlobalScope} {errors errors' : ErrorContext}
    (h : collectDeclarations filename nodes global errors = .ok (global', errors', true))
    (name : StringView) :
    global'.returnType name =
      (global.returnType name).or (nodes.findSome? (declaredType name)) := by
  induction nodes generalizing global errors with
  | nil =>
    cases h
    simp
  | cons node nodes ih =>
    unfold collectDeclarations at h
    cases node with
    | null => cases h
    | function info functionName returnType params body isPrototype =>
      simp only [isFunction, semanticGlobalDeclareFunction, if_true] at h
      cases hdeclare : declareFunction global
          ⟨functionName, returnType, params, info.line, filename, isPrototype⟩ with
      | error message =>
        rw [hdeclare] at h
        obtain ⟨⟨global₂, errors₂, allOk⟩, -, hend⟩ := ok_of_bind h
        cases hend
      | ok global₁ =>
        rw [hdeclare] at h
        obtain ⟨⟨global₂, errors₂, allOk⟩, hrest, hend⟩ := ok_of_bind h
        cases hend
        rw [ih hrest, declareFunction_returnType hdeclare, Option.or_assoc,
          List.findSome?_cons]
        by_cases hname : functionName = name <;> simp [declaredType, hname]
    | _ =>
      obtain ⟨⟨global₂, errors₂, allOk⟩, hrest, hend⟩ := ok_of_bind h
      cases hend
      exact ih hrest

/-- What is collected from the units, all of which have a tree. -/
theorem collectUnits_returnType {units : List CompilationUnit} {global global' : GlobalScope}
    {errors errors' : ErrorContext}
    (h : collectUnits units global errors = .ok (global', errors', true))
    (hparsed : ∀ unit ∈ units, unit.parsedOk = true) (name : StringView) :
    global'.returnType name = (global.returnType name).or
      ((units.flatMap (·.declarations)).findSome? (declaredType name)) := by
  induction units generalizing global errors with
  | nil =>
    cases h
    simp
  | cons unit units ih =>
    have hunit := hparsed unit (by simp)
    have hunits : ∀ unit ∈ units, unit.parsedOk = true :=
      fun other hmem => hparsed other (List.mem_cons_of_mem _ hmem)
    unfold collectUnits at h
    rw [hunit, if_neg (by decide)] at h
    obtain ⟨declarations, hdeclarations, hcollect⟩ := ok_of_bind h
    obtain ⟨⟨global₁, errors₁, ok⟩, hfirst, hcollect'⟩ := ok_of_bind hcollect
    obtain ⟨⟨global₂, errors₂, allOk⟩, hrest, hend⟩ := ok_of_bind hcollect'
    simp only [pure, Except.pure, Except.ok.injEq, Prod.mk.injEq, Bool.and_eq_true] at hend
    obtain ⟨rfl, rfl, rfl, rfl⟩ := hend
    have hsame : unit.declarations = declarations := by
      unfold CompilationUnit.declarations
      unfold declarationsOf at hdeclarations
      split at hdeclarations
      · cases hdeclarations
        rename_i hast
        rw [hast]
      · cases hdeclarations
      · cases hdeclarations
    rw [ih hrest hunits, collectDeclarations_returnType hfirst, Option.or_assoc,
      List.flatMap_cons, List.findSome?_append, hsame]

/-! ## What analysis accepts -/

/-- A unit and the same unit with types. -/
def TypesUnit (global : GlobalScope) (unit unit' : CompilationUnit) : Prop :=
  ∃ info declarations declarations' visible,
    unit.ast = .translationUnit info declarations ∧
      unit'.ast = .translationUnit info declarations' ∧
      TypesDeclarations ⟨visible, global⟩ declarations declarations'

theorem analyzeUnits_types {units units' : List CompilationUnit} {global : GlobalScope}
    {errors errors' : ErrorContext}
    (h : analyzeUnits units global errors = .ok (units', errors', true))
    (hparsed : ∀ unit ∈ units, unit.parsedOk = true ∧ unit.ast.isNull = false) :
    List.Forall₂ (TypesUnit global) units units' := by
  induction units generalizing units' errors with
  | nil =>
    cases h
    exact .nil
  | cons unit units ih =>
    obtain ⟨hok, hnull⟩ := hparsed unit (by simp)
    have hunits : ∀ unit ∈ units, unit.parsedOk = true ∧ unit.ast.isNull = false :=
      fun other hmem => hparsed other (List.mem_cons_of_mem _ hmem)
    unfold analyzeUnits at h
    rw [hok, hnull, if_neg (by decide)] at h
    obtain ⟨⟨unit', errors₁, ok⟩, hunit, hanalyze⟩ := ok_of_bind h
    obtain ⟨⟨units₂, errors₂, allOk⟩, hrest, hend⟩ := ok_of_bind hanalyze
    simp only [pure, Except.pure, Except.ok.injEq, Prod.mk.injEq, Bool.and_eq_true] at hend
    obtain ⟨rfl, rfl, rfl, rfl⟩ := hend
    refine .cons ?_ (ih hrest hunits)
    unfold analyzeUnit at hunit
    split at hunit
    · rename_i info declarations hast
      obtain ⟨⟨⟨declarations', ok⟩, sa⟩, hrun, hend⟩ := ok_of_bind hunit
      cases hend
      obtain ⟨visible, htypes⟩ := wp_of_ok hrun
        (semanticAnalyze_spec declarations unit.file.name errors global) rfl
      exact ⟨info, declarations, declarations', visible, hast, rfl, htypes⟩
    · cases hunit

/-- A program that is parsed and accepted: its functions have the types that are declared,
and its units have derivations. -/
theorem compileAnalyzeAll_types {ctx₀ ctx ctx' : CompilationContext}
    (hparse : compileParseAll ctx₀ = .ok (ctx, true))
    (hanalyze : compileAnalyzeAll ctx = .ok (ctx', true)) :
    ∃ global, (∀ name, global.returnType name = ctx.functionType name) ∧
      List.Forall₂ (TypesUnit global) ctx.units ctx'.units := by
  have hparsed := parseFiles_parsed hparse
  unfold compileAnalyzeAll at hanalyze
  obtain ⟨⟨global, errors, allOk⟩, hcollect, hrest⟩ := ok_of_bind hanalyze
  cases allOk with
  | false => cases hrest
  | true =>
    obtain ⟨⟨units, errors', allOk'⟩, hunits, hend⟩ := ok_of_bind hrest
    cases hend
    refine ⟨global, fun name => ?_, ?_⟩
    · rw [collectUnits_returnType hcollect fun unit hunit => (hparsed unit hunit).1]
      rfl
    · exact analyzeUnits_types hunits fun unit hunit =>
        ⟨(hparsed unit hunit).1, (hparsed unit hunit).2.1⟩

/-! ## Void operands -/

/-- Every operand and every condition in a program has an integer type. -/
def CompilationContext.OperandsInteger (ctx : CompilationContext) : Prop :=
  ∀ unit ∈ ctx.units, Semantic.OperandsInteger unit.ast

/-- No operand and no condition in a program is without a value. -/
def CompilationContext.VoidFree (ctx : CompilationContext) : Prop :=
  ∀ unit ∈ ctx.units, ∀ f ∈ unit.declarations, VoidFreeFunction ctx.functionType f

theorem TypesUnit.tells {global : GlobalScope} {fns : StringView → Option DataType}
    (hfns : ∀ name, global.returnType name = fns name) {unit unit' : CompilationUnit}
    (h : TypesUnit global unit unit') (hbare : Parser.BareUnit unit.ast) :
    Semantic.OperandsInteger unit'.ast ↔ ∀ f ∈ unit.declarations, VoidFreeFunction fns f := by
  obtain ⟨info, declarations, declarations', visible, hast, hast', htypes⟩ := h
  have hdeclarations : unit.declarations = declarations := by
    unfold CompilationUnit.declarations
    rw [hast]
  rw [hast] at hbare
  rw [hast', hdeclarations]
  have hfunctions : FunctionTypes ⟨visible, global⟩ fns := by
    intro name func hfunc
    rw [← hfns, GlobalScope.returnType, hfunc]
    rfl
  show AllOperandsInteger declarations' ↔ _
  clear hast hast' hdeclarations
  induction htypes with
  | nil => exact ⟨fun _ => List.forall_mem_nil _, fun _ => List.forall_mem_nil _⟩
  | @cons node node' nodes nodes' hnode _ ih =>
    obtain ⟨uses, hnode⟩ := hnode
    have hone := hnode.tells hfunctions (hbare node (by simp))
    have hall := ih fun other hmem => hbare other (List.mem_cons_of_mem _ hmem)
    unfold AllOperandsInteger at hall ⊢
    simp only [operandsAll, List.forall_mem_append, List.forall_mem_cons]
    rw [hall]
    exact and_congr_left' hone

/-- In an accepted program every operand and every condition has an integer type if and
only if none in the source is without a value and nothing escapes the analyzer. -/
theorem operandsInteger_iff {ctx₀ ctx ctx' : CompilationContext}
    (hparse : compileParseAll ctx₀ = .ok (ctx, true))
    (hanalyze : compileAnalyzeAll ctx = .ok (ctx', true)) :
    ctx'.OperandsInteger ↔ ctx.VoidFree := by
  obtain ⟨global, hfns, hunits⟩ := compileAnalyzeAll_types hparse hanalyze
  have hbare : ∀ unit ∈ ctx.units, Parser.BareUnit unit.ast :=
    fun unit hunit => (parseFiles_parsed hparse unit hunit).2.2
  unfold CompilationContext.OperandsInteger CompilationContext.VoidFree
  generalize ctx.units = units, ctx'.units = units', ctx.functionType = fns at *
  induction hunits with
  | nil => exact ⟨fun _ => nofun, fun _ => nofun⟩
  | @cons unit unit' units units' hunit _ ih =>
    rw [List.forall_mem_cons, List.forall_mem_cons]
    have hone := hunit.tells hfns (hbare unit (by simp))
    have hall := ih fun other hmem => hbare other (List.mem_cons_of_mem _ hmem)
    exact and_congr hone hall

theorem operandsInteger_iff_sum :
    ∃ ctx ctx', compileParseAll (oneFile "int main(void) \x7b return 1 + 2; \x7d") =
        .ok (ctx, true) ∧ compileAnalyzeAll ctx = .ok (ctx', true) ∧
      (ctx'.OperandsInteger ↔ ctx.VoidFree) := by
  have hsome : (accepted (oneFile "int main(void) \x7b return 1 + 2; \x7d")).isSome = true := by
    decide +kernel
  obtain ⟨ctx', haccepted⟩ := Option.isSome_iff_exists.mp hsome
  obtain ⟨ctx, hparse, hanalyze⟩ := accepted_eq_some haccepted
  exact ⟨ctx, ctx', hparse, hanalyze, operandsInteger_iff hparse hanalyze⟩

/-- A program is accepted, and some operand or condition in it has no integer type. -/
def acceptsVoidOperand (ctx : CompilationContext) : Bool :=
  (accepted ctx).any fun ctx' => ctx'.units.any fun unit =>
    (operands unit.ast).any fun o => !o.valueType?.any typeIsInteger

/-- In `1 + f()` the function may have no value. -/
theorem voidOperand_accepted : ¬ ∀ ctx ctx',
    compileParseAll (oneFile "void f(void) \x7b \x7d int main(void) \x7b return 1 + f(); \x7d") =
      .ok (ctx, true) → compileAnalyzeAll ctx = .ok (ctx', true) → ctx'.OperandsInteger := by
  intro hall
  have haccepts : acceptsVoidOperand
      (oneFile "void f(void) \x7b \x7d int main(void) \x7b return 1 + f(); \x7d") = true := by
    decide +kernel
  obtain ⟨ctx', haccepted, hany⟩ := (Option.any_eq_true _ _).mp haccepts
  obtain ⟨ctx, hparse, hanalyze⟩ := accepted_eq_some haccepted
  obtain ⟨unit, hunit, hoperands⟩ := List.any_eq_true.mp hany
  obtain ⟨o, ho, hnot⟩ := List.any_eq_true.mp hoperands
  obtain ⟨type, htype, hinteger⟩ := hall ctx ctx' hparse hanalyze unit hunit o ho
  rw [htype] at hnot
  simp [hinteger] at hnot

end TinyCompile.Compile
