import TinyCompile.Compile.Collect
import TinyCompile.Compile.Exchange
import TinyCompile.Semantic.Accepts
import TinyCompile.Semantic.Rejects

set_option autoImplicit false

/-!
# Compile: exactly which programs analysis accepts

`compile_analyze_all` accepts the programs whose declarations go together and whose files keep
the typing rules, and it records an error for every other one.
-/

namespace TinyCompile.Compile

open TinyCompile.Source TinyCompile.Logic TinyCompile.Semantic

/-! ## Well-typed programs -/

/-- What the analysis is given of a file that has been parsed. -/
structure CompilationUnit.Parsed (unit : CompilationUnit) : Prop where
  ok : unit.parsedOk = true
  tree : unit.ast.isNull = false
  bare : Parser.BareUnit unit.ast

theorem parsed_of_parse {ctx₀ ctx : CompilationContext}
    (h : compileParseAll ctx₀ = .ok (ctx, true)) : ∀ unit ∈ ctx.units, unit.Parsed :=
  fun unit hunit =>
    have hparsed := parseFiles_parsed h unit hunit
    ⟨hparsed.1, hparsed.2.1, hparsed.2.2⟩

/-! ## What is accepted -/

theorem collectDeclarations_tells {filename : String} {nodes : List ASTNode}
    {global global' : GlobalScope} {errors errors' : ErrorContext} {ok : Bool}
    (h : collectDeclarations filename nodes global errors = .ok (global', errors', ok)) :
    Verdict errors ok errors' := by
  induction nodes generalizing global errors ok with
  | nil =>
    cases h
    exact .refl _
  | cons node nodes ih =>
    unfold collectDeclarations at h
    cases node with
    | null => cases h
    | function info name returnType params body isPrototype =>
      simp only [isFunction, semanticGlobalDeclareFunction, if_true] at h
      cases hdeclare : declareFunction global
          ⟨name, returnType, params, info.line, filename, isPrototype⟩ with
      | ok global₁ =>
        rw [hdeclare] at h
        obtain ⟨⟨global₂, errors₂, allOk⟩, hrest, hend⟩ := ok_of_bind h
        cases hend
        exact (Verdict.refl errors).and (ih hrest)
      | error message =>
        rw [hdeclare] at h
        obtain ⟨⟨global₂, errors₂, allOk⟩, hrest, hend⟩ := ok_of_bind h
        cases hend
        exact (verdict_error ..).and (ih hrest)
    | _ =>
      obtain ⟨⟨global₂, errors₂, allOk⟩, hrest, hend⟩ := ok_of_bind h
      cases hend
      exact ih hrest

theorem collectUnits_tells {units : List CompilationUnit} {global global' : GlobalScope}
    {errors errors' : ErrorContext} {ok : Bool}
    (h : collectUnits units global errors = .ok (global', errors', ok)) :
    Verdict errors ok errors' := by
  induction units generalizing global errors ok with
  | nil =>
    cases h
    exact .refl _
  | cons unit units ih =>
    unfold collectUnits at h
    split at h
    · exact ih h
    · obtain ⟨declarations, -, hcollect⟩ := ok_of_bind h
      obtain ⟨⟨global₁, errors₁, ok₁⟩, hfirst, hcollect'⟩ := ok_of_bind hcollect
      obtain ⟨⟨global₂, errors₂, ok₂⟩, hrest, hend⟩ := ok_of_bind hcollect'
      cases hend
      exact (collectDeclarations_tells hfirst).and (ih hrest)

theorem isTopLevel_of_bare {node : ASTNode} (h : Parser.BareDeclaration node) :
    isTopLevel node = true := by
  cases node with
  | null => rfl
  | function => rfl
  | _ => cases h

theorem analyzeUnits_tells {units units' : List CompilationUnit} {global : GlobalScope}
    {errors errors' : ErrorContext} {ok : Bool} (hparsed : ∀ unit ∈ units, unit.Parsed)
    (h : analyzeUnits units global errors = .ok (units', errors', ok)) :
    Verdict errors ok errors' := by
  induction units generalizing units' errors ok with
  | nil =>
    cases h
    exact .refl _
  | cons unit units ih =>
    obtain ⟨hfirst, hrest⟩ := List.forall_mem_cons.mp hparsed
    unfold analyzeUnits at h
    rw [hfirst.ok, hfirst.tree, if_neg (by decide)] at h
    obtain ⟨⟨unit₁, errors₁, ok₁⟩, hunit, hnext⟩ := ok_of_bind h
    obtain ⟨⟨units₂, errors₂, ok₂⟩, hunits, hend⟩ := ok_of_bind hnext
    cases hend
    refine Verdict.and ?_ (ih hrest hunits)
    unfold analyzeUnit at hunit
    split at hunit
    · rename_i info declarations hast
      obtain ⟨⟨⟨out, ok'⟩, sa⟩, hrun, hend⟩ := ok_of_bind hunit
      cases hend
      have hbare := hfirst.bare
      rw [hast] at hbare
      have htold := wp_of_ok hrun (tells_semanticAnalyze
        (fun node hnode => isTopLevel_of_bare (hbare node hnode)) _)
      exact htold.verdict
    · cases hunit

/-- `compile_analyze_all` records an error exactly where it reports failure. -/
theorem compileAnalyzeAll_tells {ctx ctx' : CompilationContext} {ok : Bool}
    (hparsed : ∀ unit ∈ ctx.units, unit.Parsed) (h : compileAnalyzeAll ctx = .ok (ctx', ok)) :
    Verdict ctx.errors ok ctx'.errors := by
  unfold compileAnalyzeAll at h
  obtain ⟨⟨global, errors, collected⟩, hcollect, hnext⟩ := ok_of_bind h
  have hcollected := collectUnits_tells hcollect
  cases collected with
  | false =>
    cases hnext
    exact hcollected
  | true =>
    obtain ⟨⟨units, errors₂, ok'⟩, hunits, hend⟩ := ok_of_bind hnext
    cases hend
    exact hcollected.and (analyzeUnits_tells hparsed hunits)

end TinyCompile.Compile
