import TinyCompile.Parser.TopLevel

set_option autoImplicit false

/-!
# Compile: parsing all files

`compile_parse_all` of `srcs/compile/compile.c`, and the place of `srcs/main.c` that looks
at its result.  A file counts as parsed if its tree is there.  So an error stops the
program only where the parser gives up on the whole file; errors inside declarations are
recorded, and the program goes on with what is left of the tree.
-/

namespace TinyCompile.Compile

open TinyCompile.Source TinyCompile.Parser

/-- `FileMap`. -/
structure FileMap where
  name : String
  data : StringView

/-- `CompilationUnit`. -/
structure CompilationUnit where
  file : FileMap
  ast : ASTNode
  parsedOk : Bool

/-- `CompilationContext`, the global scope aside; `arena` is the address the next node
gets. -/
structure CompilationContext where
  units : List CompilationUnit
  arena : Nat
  errors : ErrorContext

/-- The body of the loop of `compile_parse_all`. -/
def parseFile (unit : CompilationUnit) (arena : Nat) (errors : ErrorContext) :
    Except Stop (CompilationUnit × Nat × ErrorContext) := do
  let (ast, s) ← parserParse (tokenStream unit.file.data) unit.file.name arena errors
  return ({ unit with ast := ast, parsedOk := !ast.isNull }, s.arena, s.errors)

/-- The loop of `compile_parse_all`. -/
def parseFiles : List CompilationUnit → Nat → ErrorContext →
    Except Stop (CompilationContext × Bool)
  | [], arena, errors => return (⟨[], arena, errors⟩, true)
  | unit :: units, arena, errors => do
      let (unit, arena, errors) ← parseFile unit arena errors
      let (ctx, allOk) ← parseFiles units arena errors
      return ({ ctx with units := unit :: ctx.units }, unit.parsedOk && allOk)

/-- `compile_parse_all`. -/
def compileParseAll (ctx : CompilationContext) : Except Stop (CompilationContext × Bool) :=
  parseFiles ctx.units ctx.arena ctx.errors

/-- The phases `main` prints. -/
inductive Phase where
  | parsing | semantics | jit | execution
  deriving DecidableEq, Repr

/-- `main` from its second phase on; `rest` are the phases behind the third. -/
def phases (rest : CompilationContext → List Phase) (ctx : CompilationContext) :
    Except Stop (List Phase) := do
  let (ctx, ok) ← compileParseAll ctx
  return if ok then .parsing :: .semantics :: rest ctx else [.parsing]

/-! ## One file -/

section

variable {unit : CompilationUnit} {arena : Nat} {errors : ErrorContext}

theorem parseFile_null (h : FollowsNull unit.file.data) :
    parseFile unit arena errors = .error .nullPointer := by
  unfold parseFile
  rw [h.parse]
  rfl

/-- A file in which no null pointer is followed is parsed: well if it is well formed, and
to a null pointer if it gives up. -/
theorem parseFile_spec (h : ¬ FollowsNull unit.file.data) :
    ∃ unit' arena' errors', parseFile unit arena errors = .ok (unit', arena', errors') ∧
      (WellFormed unit.file.data ↔ errors'.nodes = errors.nodes) ∧
      Adds errors errors' ∧ (unit'.parsedOk = false ↔ GivesUp unit.file.data) := by
  obtain ⟨node, s', hrun, hnode⟩ := parserParse_returns unit.file.name arena errors h
  refine ⟨{ unit with ast := node, parsedOk := !node.isNull }, s'.arena, s'.errors, ?_,
    wellFormed_iff_clean _ _ _ hrun, ?_, ?_⟩
  · unfold parseFile
    rw [hrun]
    rfl
  · have htokens := parserInit_tokens (tokenStream unit.file.data) unit.file.name arena errors
    have hlater := Logic.wp_of_ok hrun (parseUnit_ends (by rw [htokens]; exact Nat.lt_succ_self _)
      (show 0 < maxExpressionDepth by decide))
    exact hlater.errors
  · simpa using hnode

end

/-! ## All files -/

theorem parseFiles_null {units : List CompilationUnit}
    (h : ∃ unit ∈ units, FollowsNull unit.file.data) (arena : Nat) (errors : ErrorContext) :
    parseFiles units arena errors = .error .nullPointer := by
  induction units generalizing arena errors with
  | nil =>
    obtain ⟨unit, hunit, -⟩ := h
    cases hunit
  | cons unit units ih =>
    unfold parseFiles
    by_cases hnull : FollowsNull unit.file.data
    · rw [parseFile_null hnull]
      rfl
    · obtain ⟨unit', arena', errors', hrun, -⟩ := @parseFile_spec unit arena errors hnull
      have hrest : ∃ unit ∈ units, FollowsNull unit.file.data := by
        obtain ⟨other, hmem, hother⟩ := h
        rcases List.mem_cons.mp hmem with rfl | hmem
        · exact absurd hother hnull
        · exact ⟨other, hmem, hother⟩
      rw [hrun]
      show (parseFiles units arena' errors' >>= _) = _
      rw [ih hrest]
      rfl

theorem parseFiles_spec {units : List CompilationUnit}
    (h : ∀ unit ∈ units, ¬ FollowsNull unit.file.data) (arena : Nat) (errors : ErrorContext) :
    ∃ ctx ok, parseFiles units arena errors = .ok (ctx, ok) ∧
      ((∀ unit ∈ units, WellFormed unit.file.data) ↔ ctx.errors.nodes = errors.nodes) ∧
      Adds errors ctx.errors ∧
      (ok = false ↔ ∃ unit ∈ units, GivesUp unit.file.data) := by
  induction units generalizing arena errors with
  | nil => exact ⟨⟨[], arena, errors⟩, true, rfl, by simp, .refl _, by simp⟩
  | cons unit units ih =>
    obtain ⟨unit', arena', errors', hrun, hwell, hmore, hok⟩ :=
      @parseFile_spec unit arena errors (h unit (by simp))
    obtain ⟨ctx, ok, hrun', hwell', hmore', hok'⟩ :=
      ih (fun unit hunit => h unit (List.mem_cons_of_mem _ hunit)) arena' errors'
    refine ⟨{ ctx with units := unit' :: ctx.units }, unit'.parsedOk && ok, ?_, ?_,
      hmore.trans hmore', ?_⟩
    · unfold parseFiles
      rw [hrun]
      show (parseFiles units arena' errors' >>= _) = _
      rw [hrun']
      rfl
    · rw [List.forall_mem_cons, hwell, hwell']
      exact (hmore.nodes_iff hmore').symm
    · have hfirst : (∃ other ∈ unit :: units, GivesUp other.file.data) ↔
          GivesUp unit.file.data ∨ ∃ other ∈ units, GivesUp other.file.data := by simp
      rw [hfirst, ← hok, ← hok']
      cases unit'.parsedOk <;> simp

/-- An error that is recorded while the files are parsed stops the program: parsing
returns, reports failure, and `main` goes no further. -/
def ParseErrorsStop (ctx : CompilationContext) : Prop :=
  ∃ ctx' ok, compileParseAll ctx = .ok (ctx', ok) ∧
    (ctx'.errors.nodes ≠ ctx.errors.nodes →
      ok = false ∧ ∀ rest, phases rest ctx = .ok [.parsing])

/-- Parse errors stop the program if and only if there are none, the tokens of every file
being a program of the grammar, or the tokens of some file go on with something else where a
declaration should be, and in no file a `=` or `(` lacks the operand on its left. -/
theorem parseErrorsStop_iff (ctx : CompilationContext) :
    ParseErrorsStop ctx ↔ (∀ unit ∈ ctx.units, WellFormed unit.file.data) ∨
      (∀ unit ∈ ctx.units, ¬ FollowsNull unit.file.data) ∧
        ∃ unit ∈ ctx.units, GivesUp unit.file.data := by
  have hphases : ∀ ctx', compileParseAll ctx = .ok (ctx', false) → ∀ rest,
      phases rest ctx = .ok [.parsing] := by
    intro ctx' hrun rest
    unfold phases
    rw [hrun]
    rfl
  by_cases hnull : ∃ unit ∈ ctx.units, FollowsNull unit.file.data
  · constructor
    · rintro ⟨ctx', ok, hrun, -⟩
      have hstop : compileParseAll ctx = .error .nullPointer := parseFiles_null hnull _ _
      rw [hstop] at hrun
      cases hrun
    · obtain ⟨unit, hunit, hfollows⟩ := hnull
      rintro (hwell | ⟨hno, -⟩)
      · exact absurd hfollows (hwell unit hunit).tree.2
      · exact absurd hfollows (hno unit hunit)
  · have hnull' : ∀ unit ∈ ctx.units, ¬ FollowsNull unit.file.data :=
      fun unit hunit h => hnull ⟨unit, hunit, h⟩
    obtain ⟨ctx', ok, hrun, hwell, -, hok⟩ := parseFiles_spec hnull' ctx.arena ctx.errors
    have hrun' : compileParseAll ctx = .ok (ctx', ok) := hrun
    constructor
    · rintro ⟨ctx'', ok', hrun'', hstop⟩
      rw [hrun'] at hrun''
      cases hrun''
      by_cases hclean : ctx'.errors.nodes = ctx.errors.nodes
      · exact .inl (hwell.mpr hclean)
      · exact .inr ⟨hnull', hok.mp (hstop hclean).1⟩
    · rintro (hall | ⟨-, hup⟩)
      · exact ⟨ctx', ok, hrun', fun herrors => absurd (hwell.mp hall) herrors⟩
      · obtain rfl := hok.mpr hup
        exact ⟨ctx', false, hrun', fun _ => ⟨rfl, hphases ctx' hrun'⟩⟩

/-- A context with one file that has not been parsed. -/
def oneFile (data : String) : CompilationContext := ⟨[⟨⟨"a.c", svOf data⟩, .null, false⟩], 0, .init⟩

/-- Errors are recorded, and parsing reports success. -/
def goesOn (r : Except Stop (CompilationContext × Bool)) : Bool :=
  match r with
  | .ok (ctx, ok) => ok && !ctx.errors.nodes.isEmpty
  | .error _ => false

/-- The error at `5 y;` stops nothing. -/
theorem parseErrorsStop_fails :
    ¬ ParseErrorsStop (oneFile "int main(void) \x7b 5 y; return 1; \x7d") := by
  rintro ⟨ctx, ok, hrun, hstop⟩
  have hon : goesOn (compileParseAll (oneFile "int main(void) \x7b 5 y; return 1; \x7d")) =
      true := by
    decide +kernel
  rw [hrun] at hon
  simp only [goesOn, Bool.and_eq_true, Bool.not_eq_true', List.isEmpty_eq_false_iff] at hon
  have hfalse := (hstop hon.2).1
  rw [hon.1] at hfalse
  cases hfalse

end TinyCompile.Compile
