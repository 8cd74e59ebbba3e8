import TinyCompile.Compile.Exchange
import TinyCompile.Ir.Ends

set_option autoImplicit false

/-!
# Compile: functions that do not return

Analysis looks at the type of every return, not at whether one is reached.
-/

namespace TinyCompile.Compile

open TinyCompile.Machine TinyCompile.Source TinyCompile.Logic TinyCompile.Ir

/-- In a program that is parsed without an error and accepted, the run of a function whose
registers suffice stops at returns only, if and only if the statements of the function do not
come to their end. -/
theorem stopsAtRet_iff {ctx₀ ctx ctx' : CompilationContext} {d : String × ASTNode}
    {fresh : IRFunction} {errors : ErrorContext} {s : GenState}
    (hparse : compileParseAll ctx₀ = .ok (ctx, true))
    (hclean : ctx.errors.nodes = ctx₀.errors.nodes)
    (hanalyze : compileAnalyzeAll ctx = .ok (ctx', true)) (hd : d ∈ ctx'.definitions)
    (hgen : irGen fresh d.2 errors (some d.1) = .ok (true, s))
    (hregisters : RegistersSuffice fresh.stackCount d.2) (oracle : Oracle) {start : RunState}
    (hargs : start.args = []) : StopsAtRet oracle s.f.instructions start ↔
      ¬ ReachesEnd oracle fresh.stackCount d.2 start.store :=
  function_stopsAtRet_iff (compileAnalyzeAll_complete hanalyze
    (complete_of_parse hparse hclean) d hd) hgen hregisters hargs

/-! ## Samples -/

/-- What the first function of a file is generated to, and with how many errors, if the file
is parsed without an error and accepted. -/
def generateFirst (text : String) :
    Option (CompilationContext × CompilationContext × (String × ASTNode) × GenState) :=
  match compileParseAll (oneFile text) with
  | .ok (ctx, true) =>
      if ctx.errors.nodes = [] then
        match compileAnalyzeAll ctx with
        | .ok (ctx', true) =>
            ctx'.definitions.head?.bind fun d =>
              match irGen .zeroed d.2 ctx'.errors (some d.1) with
              | .ok (true, s) => some (ctx, ctx', d, s)
              | _ => none
        | _ => none
      else none
  | _ => none

theorem generateFirst_eq_some {text : String} {ctx ctx' : CompilationContext}
    {d : String × ASTNode} {s : GenState} (h : generateFirst text = some (ctx, ctx', d, s)) :
    compileParseAll (oneFile text) = .ok (ctx, true) ∧
      ctx.errors.nodes = (oneFile text).errors.nodes ∧
      compileAnalyzeAll ctx = .ok (ctx', true) ∧ d ∈ ctx'.definitions ∧
      irGen .zeroed d.2 ctx'.errors (some d.1) = .ok (true, s) := by
  unfold generateFirst at h
  split at h
  · rename_i ctx₁ hparse
    split at h
    · rename_i hclean
      split at h
      · rename_i ctx₂ hanalyze
        obtain ⟨d', hd, hgen⟩ := Option.bind_eq_some_iff.mp h
        split at hgen
        · rename_i s' hrun
          cases hgen
          exact ⟨hparse, hclean, hanalyze, List.mem_of_mem_head? hd, hrun⟩
        · cases hgen
      · cases h
    · cases h
  · cases h

/-- Registers and slots that hold zero. -/
def zeroState : RunState := ⟨fun _ => 0, fun _ => 0, [], []⟩

/-- No call returns. -/
def noCalls : Oracle := fun _ => none

/-- `if (n) return 1;` with a block, and nothing behind it. -/
def conditionalReturn : String := "int main(int n) \x7b if (n) \x7b return 1; \x7d \x7d"

/-- The registers of the first function of a file suffice. -/
def sufficesFirst (text : String) : Bool :=
  (generateFirst text).any fun r => decide (RegistersSuffice 0 r.2.2.1.2)

theorem stopsAtRet_iff_conditionalReturn : ∃ ctx ctx', ∃ d : String × ASTNode, ∃ s,
    compileParseAll (oneFile conditionalReturn) = .ok (ctx, true) ∧
      compileAnalyzeAll ctx = .ok (ctx', true) ∧
      irGen .zeroed d.2 ctx'.errors (some d.1) = .ok (true, s) ∧
      (StopsAtRet noCalls s.f.instructions zeroState ↔
        ¬ ReachesEnd noCalls 0 d.2 zeroState.store) := by
  have hsuffices : sufficesFirst conditionalReturn = true := by decide +kernel
  obtain ⟨⟨ctx, ctx', d, s⟩, hgenerate, hregisters⟩ := (Option.any_eq_true _ _).mp hsuffices
  obtain ⟨hparse, hclean, hanalyze, hd, hgen⟩ := generateFirst_eq_some hgenerate
  have hregisters' : RegistersSuffice 0 d.2 := of_decide_eq_true hregisters
  exact ⟨ctx, ctx', d, s, hparse, hanalyze, hgen,
    stopsAtRet_iff hparse hclean hanalyze hd hgen hregisters' noCalls rfl⟩

/-- The run of the first function on zeros is at the end of the instructions after two
turns. -/
def fallsOff (text : String) : Bool :=
  (generateFirst text).any fun r =>
    (stepsTo (runStep noCalls r.2.2.2.f.instructions) 2 (0, zeroState)).any fun c =>
      c.1 == r.2.2.2.f.instructions.length

/-- Where `n` is zero, `main` runs on behind its instructions. -/
theorem conditionalReturn_fallsOff : ∃ ctx ctx', ∃ d : String × ASTNode, ∃ s,
    compileParseAll (oneFile conditionalReturn) = .ok (ctx, true) ∧
      ctx.errors.nodes = (oneFile conditionalReturn).errors.nodes ∧
      compileAnalyzeAll ctx = .ok (ctx', true) ∧ d ∈ ctx'.definitions ∧
      irGen .zeroed d.2 ctx'.errors (some d.1) = .ok (true, s) ∧
      ¬ StopsAtRet noCalls s.f.instructions zeroState := by
  have hfalls : fallsOff conditionalReturn = true := by decide +kernel
  obtain ⟨⟨ctx, ctx', d, s⟩, hgenerate, hany⟩ := (Option.any_eq_true _ _).mp hfalls
  obtain ⟨⟨pc, s'⟩, hsteps, hpc⟩ := (Option.any_eq_true _ _).mp hany
  obtain ⟨hparse, hclean, hanalyze, hd, hgen⟩ := generateFirst_eq_some hgenerate
  refine ⟨ctx, ctx', d, s, hparse, hclean, hanalyze, hd, hgen, fun hstops => ?_⟩
  obtain ⟨inst, hget, -⟩ := hstops pc s' ⟨2, hsteps⟩
  have hend : pc = s.f.instructions.length := of_decide_eq_true hpc
  rw [hend, List.getElem?_eq_none (Nat.le_refl _)] at hget
  cases hget

end TinyCompile.Compile
