import TinyCompile.Compile.Analyze
import TinyCompile.Semantic.Collect

set_option autoImplicit false

/-!
# Compile: collecting the declarations of all files

The first half of `compile_analyze_all` calls `semantic_global_declare_function` on every
function of every file.  What comes of it does not depend on their order.
-/

namespace TinyCompile.Compile

open TinyCompile.Source TinyCompile.Logic TinyCompile.Semantic

/-! ## The calls that are made -/

/-- The function a node of a file declares. -/
def functionInfo (filename : String) : ASTNode → Option FunctionInfo
  | .function info name returnType params _ isPrototype =>
      some ⟨name, returnType, params, info.line, filename, isPrototype⟩
  | _ => none

/-- The functions a file declares. -/
def CompilationUnit.functions (unit : CompilationUnit) : List FunctionInfo :=
  if unit.parsedOk then unit.declarations.filterMap (functionInfo unit.file.name) else []

/-- The functions some files declare, in the order in which they are declared. -/
def functionsOf (units : List CompilationUnit) : List FunctionInfo :=
  units.flatMap (·.functions)

/-- A file that counts as parsed has a tree, in which no declaration is missing. -/
def CompilationUnit.HasTree (unit : CompilationUnit) : Prop :=
  unit.parsedOk = true → ∃ info declarations, unit.ast = .translationUnit info declarations ∧
    ∀ d ∈ declarations, d.isNull = false

theorem declareAll_append (fs fs' : List FunctionInfo) (global : GlobalScope) :
    declareAll (fs ++ fs') global =
      ((declareAll fs' (declareAll fs global).1).1,
        (declareAll fs global).2 && (declareAll fs' (declareAll fs global).1).2) := by
  induction fs generalizing global with
  | nil => simp [declareAll]
  | cons f fs ih =>
    rw [List.cons_append, declareAll, declareAll]
    cases declareFunction global f with
    | ok global => exact ih global
    | error message => simp [ih]

/-- The calls for the declarations of a file. -/
theorem collectDeclarations_eq (filename : String) {nodes : List ASTNode}
    (h : ∀ d ∈ nodes, d.isNull = false) (global : GlobalScope) (errors : ErrorContext) :
    ∃ errors', collectDeclarations filename nodes global errors =
      .ok ((declareAll (nodes.filterMap (functionInfo filename)) global).1, errors',
        (declareAll (nodes.filterMap (functionInfo filename)) global).2) := by
  induction nodes generalizing global errors with
  | nil => exact ⟨errors, rfl⟩
  | cons node nodes ih =>
    have hnode := h node (by simp)
    have hrest := ih fun d hd => h d (List.mem_cons_of_mem _ hd)
    unfold collectDeclarations
    cases node with
    | null => cases hnode
    | function info name returnType params body isPrototype =>
      simp only [ASTNode.isNull, isFunction, semanticGlobalDeclareFunction, if_true,
        List.filterMap_cons, functionInfo, declareAll]
      cases declareFunction global ⟨name, returnType, params, info.line, filename, isPrototype⟩ with
      | ok global₁ =>
        obtain ⟨errors', heq⟩ := hrest global₁ errors
        refine ⟨errors', ?_⟩
        simp only [heq, bind, Except.bind, pure, Except.pure, Bool.true_and]
        rfl
      | error message =>
        obtain ⟨errors', heq⟩ := hrest global
          (errorAdd errors .semantic .error (some filename) info.line 0 message)
        refine ⟨errors', ?_⟩
        simp only [heq, bind, Except.bind, pure, Except.pure, Bool.false_and]
        rfl
    | _ =>
      obtain ⟨errors', heq⟩ := hrest global errors
      refine ⟨errors', ?_⟩
      simp only [ASTNode.isNull, isFunction, List.filterMap_cons, functionInfo,
        Bool.false_eq_true, if_false, heq, bind, Except.bind, pure, Except.pure, Bool.true_and]

/-- The calls for all files. -/
theorem collectUnits_eq {units : List CompilationUnit} (h : ∀ unit ∈ units, unit.HasTree)
    (global : GlobalScope) (errors : ErrorContext) :
    ∃ errors', collectUnits units global errors =
      .ok ((declareAll (functionsOf units) global).1, errors',
        (declareAll (functionsOf units) global).2) := by
  induction units generalizing global errors with
  | nil => exact ⟨errors, rfl⟩
  | cons unit units ih =>
    have hunit := h unit (by simp)
    have hrest := ih fun u hu => h u (List.mem_cons_of_mem _ hu)
    have hfunctions : functionsOf (unit :: units) = unit.functions ++ functionsOf units := rfl
    unfold collectUnits
    rw [hfunctions]
    cases hok : unit.parsedOk with
    | false =>
      obtain ⟨errors', heq⟩ := hrest global errors
      have hnone : unit.functions = [] := by simp [CompilationUnit.functions, hok]
      exact ⟨errors', by simp [hnone, heq]⟩
    | true =>
      obtain ⟨info, declarations, hast, hnodes⟩ := hunit hok
      have hsome : unit.functions = declarations.filterMap (functionInfo unit.file.name) := by
        simp [CompilationUnit.functions, hok, CompilationUnit.declarations, hast]
      obtain ⟨errors₁, heq₁⟩ := collectDeclarations_eq unit.file.name hnodes
        global errors
      obtain ⟨errors', heq⟩ := hrest (declareAll unit.functions global).1 errors₁
      refine ⟨errors', ?_⟩
      rw [declareAll_append, hast]
      rw [hsome] at heq ⊢
      simp only [declarationsOf, heq₁, heq, bind, Except.bind, pure, Except.pure]
      rfl

/-- Collecting stops early where a tree or a declaration is missing. -/
theorem hasTree_of_collectUnits {units : List CompilationUnit} {global : GlobalScope}
    {errors : ErrorContext} {r : GlobalScope × ErrorContext × Bool}
    (h : collectUnits units global errors = .ok r) : ∀ unit ∈ units, unit.HasTree := by
  have hnodes : ∀ {filename : String} {nodes : List ASTNode} {global : GlobalScope}
      {errors : ErrorContext} {r : GlobalScope × ErrorContext × Bool},
      collectDeclarations filename nodes global errors = .ok r →
      ∀ d ∈ nodes, d.isNull = false := by
    intro filename nodes
    induction nodes with
    | nil => exact fun _ => List.forall_mem_nil _
    | cons node nodes ih =>
      intro global errors r hrun d hd
      unfold collectDeclarations at hrun
      cases hnull : node.isNull with
      | true =>
        rw [hnull] at hrun
        cases hrun
      | false =>
        rw [hnull] at hrun
        obtain ⟨r', hrest, -⟩ := ok_of_bind hrun
        rcases List.mem_cons.mp hd with rfl | hd
        · exact hnull
        · exact ih hrest d hd
  induction units generalizing global errors r with
  | nil => exact List.forall_mem_nil _
  | cons unit units ih =>
    unfold collectUnits at h
    intro other hother
    cases hok : unit.parsedOk with
    | false =>
      rw [hok, if_pos (by decide)] at h
      rcases List.mem_cons.mp hother with rfl | hmem
      · intro htrue
        rw [hok] at htrue
        cases htrue
      · exact ih h other hmem
    | true =>
      rw [hok, if_neg (by decide)] at h
      obtain ⟨declarations, hdeclarations, hcollect⟩ := ok_of_bind h
      obtain ⟨r₁, hfirst, hrest⟩ := ok_of_bind hcollect
      obtain ⟨r₂, hunits, -⟩ := ok_of_bind hrest
      rcases List.mem_cons.mp hother with rfl | hmem
      · intro _
        unfold declarationsOf at hdeclarations
        split at hdeclarations
        · rename_i info declarations' hast
          cases hdeclarations
          exact ⟨info, _, hast, hnodes hfirst⟩
        · cases hdeclarations
        · cases hdeclarations
      · exact ih hunits other hmem

/-- What collecting leaves when it succeeds. -/
theorem collectUnits_tableOf {units : List CompilationUnit} {global : GlobalScope}
    {errors errors' : ErrorContext}
    (h : collectUnits units .init errors = .ok (global, errors', true)) :
    Acceptable (signaturesOf (functionsOf units)) ∧
      TableOf (functionsOf units) global.functions := by
  obtain ⟨errors'', heq⟩ := collectUnits_eq (hasTree_of_collectUnits h) .init errors
  rw [h] at heq
  obtain ⟨rfl, -, hall⟩ : global = (declareAll (functionsOf units) .init).1 ∧ errors' = errors'' ∧
      true = (declareAll (functionsOf units) .init).2 := by simpa using heq
  obtain ⟨hiff, htable⟩ := tableOf_nil.declareAll (functionsOf units) acceptable_nil
  exact ⟨hiff.mp hall.symm, htable hall.symm⟩

/-! ## The order of declarations -/

/-- A rejected declaration leaves the table as it is, and for two orders of the same
declarations all calls succeed for one if and only if they do for the other; then both
tables have the same entries, each name once. -/
theorem collection_order {units units' : List CompilationUnit} (errors errors' : ErrorContext)
    (htrees : ∀ unit ∈ units, unit.HasTree) (htrees' : ∀ unit ∈ units', unit.HasTree)
    (hperm : (signaturesOf (functionsOf units)).Perm (signaturesOf (functionsOf units'))) :
    (∀ global global' e e' node filename,
      semanticGlobalDeclareFunction global e node filename = (global', e', false) →
        global' = global) ∧
    ∃ global e ok global' e' ok',
      collectUnits units .init errors = .ok (global, e, ok) ∧
      collectUnits units' .init errors' = .ok (global', e', ok') ∧
      (ok = true ↔ ok' = true) ∧
      (ok = true →
        (signaturesOf global.functions).Perm (signaturesOf global'.functions) ∧
          (global.functions.map (·.name)).Nodup ∧ (global'.functions.map (·.name)).Nodup) := by
  refine ⟨?_, ?_⟩
  · intro global global' e e' node filename hcall
    unfold semanticGlobalDeclareFunction at hcall
    split at hcall
    · split at hcall
      · cases hcall
      · cases hcall
        rfl
    · cases hcall
      rfl
  · obtain ⟨e, heq⟩ := collectUnits_eq htrees .init errors
    obtain ⟨e', heq'⟩ := collectUnits_eq htrees' .init errors'
    obtain ⟨hiff, htable⟩ := tableOf_nil.declareAll (functionsOf units) acceptable_nil
    obtain ⟨hiff', htable'⟩ := tableOf_nil.declareAll (functionsOf units') acceptable_nil
    have hsame : (declareAll (functionsOf units) .init).2 = true ↔
        (declareAll (functionsOf units') .init).2 = true :=
      hiff.trans (Iff.trans ⟨fun h => h.perm hperm, fun h => h.perm hperm.symm⟩ hiff'.symm)
    refine ⟨_, e, _, _, e', _, heq, heq', hsame, fun hall => ?_⟩
    have ht := htable hall
    have ht' := htable' (hsame.mp hall)
    exact ⟨ht.signatures_perm ht' (hiff.mp hall) hperm, ht.nodup, ht'.nodup⟩

/-- A prototype and a definition of one function. -/
def prototypeNode : ASTNode := .function default (svOf "f") .int [⟨svOf "a", .int⟩] .null true

@[inherit_doc prototypeNode] def definitionNode : ASTNode :=
  .function default (svOf "f") .int [⟨svOf "a", .int⟩] (.block default []) false

/-- A parsed file with these declarations. -/
def parsedUnit (declarations : List ASTNode) : CompilationUnit :=
  ⟨⟨"a.c", []⟩, .translationUnit default declarations, true⟩

theorem collection_order_swap :
    ∃ global e ok global' e' ok',
      collectUnits [parsedUnit [prototypeNode, definitionNode]] .init .init =
          .ok (global, e, ok) ∧
      collectUnits [parsedUnit [definitionNode], parsedUnit [prototypeNode]] .init .init =
          .ok (global', e', ok') ∧
      (ok = true ↔ ok' = true) ∧
      (ok = true →
        (signaturesOf global.functions).Perm (signaturesOf global'.functions) ∧
          (global.functions.map (·.name)).Nodup ∧ (global'.functions.map (·.name)).Nodup) := by
  have htree : ∀ declarations : List ASTNode, (∀ d ∈ declarations, d.isNull = false) →
      (parsedUnit declarations).HasTree :=
    fun declarations h _ => ⟨default, declarations, rfl, h⟩
  refine (collection_order .init .init ?_ ?_ ?_).2
  · intro unit hunit
    rw [List.mem_singleton.mp hunit]
    exact htree _ (by simp [prototypeNode, definitionNode, ASTNode.isNull])
  · intro unit hunit
    rcases List.mem_cons.mp hunit with rfl | hunit
    · exact htree _ (by simp [definitionNode, ASTNode.isNull])
    · rw [List.mem_singleton.mp hunit]
      exact htree _ (by simp [prototypeNode, ASTNode.isNull])
  · exact List.Perm.swap _ _ []

/-! ## Conflicting declarations -/

/-- Two declarations say the same about the types of a function. -/
def SameTypes (f g : FunctionInfo) : Prop :=
  f.returnType = g.returnType ∧ f.params.length = g.params.length ∧
    f.params.map (·.type) = g.params.map (·.type)

/-- All declarations of each name say the same about its types. -/
def SignaturesAgree (fs : List FunctionInfo) : Prop :=
  ∀ f ∈ fs, ∀ g ∈ fs, f.name = g.name → SameTypes f g

/-- Wherever two declarations of a name both have a parameter, it has one type. -/
def ParamTypesRepeated (fs : List FunctionInfo) : Prop :=
  ∀ f ∈ fs, ∀ g ∈ fs, f.name = g.name →
    ∀ (i : Nat) (p q : Parameter), f.params[i]? = some p → g.params[i]? = some q → p.type = q.type

/-- In an accepted program calls are checked against the parameters of the definition; and
the declarations of each name agree if and only if they do not contradict each other in
the type of a parameter, which nothing compares. -/
theorem signaturesAgree_iff {ctx ctx' : CompilationContext}
    (h : compileAnalyzeAll ctx = .ok (ctx', true)) :
    (∃ global errors, collectUnits ctx.units .init ctx.errors = .ok (global, errors, true) ∧
      ∀ f ∈ functionsOf ctx.units, f.isPrototype = false →
        ∃ e, semanticGlobalLookupFunction global f.name = some e ∧ e.params = f.params) ∧
    (SignaturesAgree (functionsOf ctx.units) ↔ ParamTypesRepeated (functionsOf ctx.units)) := by
  unfold compileAnalyzeAll at h
  obtain ⟨⟨global, errors, allOk⟩, hcollect, hrest⟩ := ok_of_bind h
  cases allOk with
  | false => cases hrest
  | true =>
    obtain ⟨hok, htable⟩ := collectUnits_tableOf hcollect
    refine ⟨⟨global, errors, hcollect, fun f hf hdef => ?_⟩, ?_⟩
    · obtain ⟨e, he, hname, hlookup⟩ := htable.lookup (List.mem_map_of_mem hf)
      obtain ⟨d, hd, hdname, -, hdparams, hdproto⟩ := htable.repeats e he
      have hedef : e.isPrototype = false := by
        cases heproto : e.isPrototype with
        | false => rfl
        | true =>
          have := htable.prototype e he heproto f hf hname.symm
          rw [hdef] at this
          cases this
      -- there is one definition of the name only
      have hsame : d = f := by
        have hdefs : (((functionsOf ctx.units).filter fun f => !f.isPrototype).map
            (·.name)).Nodup := by
          have honce := hok.once
          unfold definedNames signaturesOf at honce
          rw [List.filter_map, List.map_map] at honce
          exact honce
        refine List.inj_on_of_nodup_map hdefs ?_ ?_ (hdname.trans hname)
        · simp [hd, hdproto, hedef]
        · simp [hf, hdef]
      exact ⟨e, hlookup, by rw [← hdparams, hsame]⟩
    · constructor
      · intro hagree f hf g hg hname i p q hp hq
        have htypes := (hagree f hf g hg hname).2.2
        have hi := congrArg (fun l => l[i]?) htypes
        simpa [hp, hq] using hi
      · intro hrepeated f hf g hg hname
        obtain ⟨htype, hcount⟩ := hok.agree _ (List.mem_map_of_mem hf) _
          (List.mem_map_of_mem hg) hname
        refine ⟨htype, hcount, ?_⟩
        apply List.ext_getElem
        · rw [List.length_map, List.length_map]
          exact hcount
        · intro i hi hi'
          rw [List.length_map] at hi hi'
          rw [List.getElem_map, List.getElem_map]
          exact hrepeated f hf g hg hname i _ _ (List.getElem?_eq_getElem hi)
            (List.getElem?_eq_getElem hi')

theorem signaturesAgree_iff_prototype :
    ∃ ctx ctx', compileParseAll (oneFile "int f(int a); int f(int a) \x7b return a; \x7d") =
        .ok (ctx, true) ∧ compileAnalyzeAll ctx = .ok (ctx', true) ∧
      (SignaturesAgree (functionsOf ctx.units) ↔ ParamTypesRepeated (functionsOf ctx.units)) := by
  have hsome : (accepted (oneFile "int f(int a); int f(int a) \x7b return a; \x7d")).isSome =
      true := by
    decide +kernel
  obtain ⟨ctx', haccepted⟩ := Option.isSome_iff_exists.mp hsome
  obtain ⟨ctx, hparse, hanalyze⟩ := accepted_eq_some haccepted
  exact ⟨ctx, ctx', hparse, hanalyze, (signaturesAgree_iff hanalyze).2⟩

instance (f g : FunctionInfo) : Decidable (SameTypes f g) :=
  inferInstanceAs (Decidable (_ ∧ _))

instance (fs : List FunctionInfo) : Decidable (SignaturesAgree fs) :=
  inferInstanceAs (Decidable (∀ f ∈ fs, ∀ g ∈ fs, f.name = g.name → SameTypes f g))

/-- A program is accepted although its declarations do not agree. -/
def acceptsConflict (ctx : CompilationContext) : Bool :=
  match compileParseAll ctx with
  | .ok (ctx, true) =>
      match compileAnalyzeAll ctx with
      | .ok (_, true) => decide (¬ SignaturesAgree (functionsOf ctx.units))
      | _ => false
  | _ => false

/-- A parameter of another type is not noticed. -/
theorem conflictingTypes_accepted : ¬ ∀ ctx ctx',
    compileParseAll (oneFile "int f(int a); int f(long a) \x7b return 1; \x7d") =
      .ok (ctx, true) → compileAnalyzeAll ctx = .ok (ctx', true) →
      SignaturesAgree (functionsOf ctx.units) := by
  intro hall
  have haccepts : acceptsConflict
      (oneFile "int f(int a); int f(long a) \x7b return 1; \x7d") = true := by
    decide +kernel
  unfold acceptsConflict at haccepts
  split at haccepts
  · rename_i ctx hparse
    split at haccepts
    · rename_i ctx' hanalyze
      exact of_decide_eq_true haccepts (hall ctx ctx' hparse hanalyze)
    · cases haccepts
  · cases haccepts

end TinyCompile.Compile
