import TinyCompile.Compile.Accepts
import TinyCompile.Compile.Compiles

set_option autoImplicit false

/-!
# Compile: `main`

`main` of `srcs/main.c` from its second phase on, up to the call of the code.  It records an error
for what is no program of the grammar, and for every program that is not valid.
-/

namespace TinyCompile.Compile

open TinyCompile.Machine TinyCompile.Source TinyCompile.Logic TinyCompile.Semantic
  TinyCompile.Ir TinyCompile.Jit

/-! ## The phases -/

section

variable (fresh : Nat → IRFunction) (buffers : Nat → Ptr) (mem : Mem)

end

/-! ## What the phases record -/

section

variable {fresh : Nat → IRFunction} {buffers : Nat → Ptr} {mem : Mem}
  {ctx parsed ctx' : CompilationContext}

/-- Parsing that comes to an end adds errors, none exactly for well formed files, and reports
success for those. -/
theorem compileParseAll_records {ok : Bool} (h : compileParseAll ctx = .ok (parsed, ok)) :
    Adds ctx.errors parsed.errors ∧
      ((∀ unit ∈ ctx.units, Parser.WellFormed unit.file.data) ↔ parsed.errors = ctx.errors) ∧
      (parsed.errors = ctx.errors → ok = true) := by
  have hnull : ∀ unit ∈ ctx.units, ¬ Parser.FollowsNull unit.file.data := by
    intro unit hunit hfollows
    have hstop : compileParseAll ctx = .error .nullPointer :=
      parseFiles_null ⟨unit, hunit, hfollows⟩ _ _
    rw [hstop] at h
    cases h
  obtain ⟨parsed', ok', hrun, hwell, hadds, hok⟩ := parseFiles_spec hnull ctx.arena ctx.errors
  cases hrun.symm.trans h
  have hclean : parsed.errors.nodes = ctx.errors.nodes ↔ parsed.errors = ctx.errors :=
    ⟨hadds.eq_of_nodes, congrArg _⟩
  refine ⟨hadds, hwell.trans hclean, fun hsame => ?_⟩
  by_contra hfailed
  obtain ⟨unit, hunit, hup⟩ := hok.mp (Bool.eq_false_iff.mpr hfailed)
  exact (hwell.mpr (hclean.mpr hsame) unit hunit).tree.1 hup

/-- What is recorded of an accepted program are warnings. -/
theorem AcceptedProgram.errorCount (hprogram : AcceptedProgram ctx parsed ctx') :
    ctx'.errors.errorCount = ctx.errors.errorCount := by
  obtain ⟨hadds, -, -⟩ := compileParseAll_records hprogram.parse
  have hcount : ctx'.errors.errorCount = parsed.errors.errorCount :=
    compileAnalyzeAll_tells (parsed_of_parse hprogram.parse) hprogram.analyze
  rw [hcount, hadds.eq_of_nodes hprogram.clean]

end

/-! ## Samples -/

end TinyCompile.Compile
