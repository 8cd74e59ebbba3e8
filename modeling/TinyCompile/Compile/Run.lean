import TinyCompile.Compile.Analyze
import TinyCompile.Ir.GenLower
import TinyCompile.Ir.Machine

set_option autoImplicit false

/-!
# Compile: generating and running a program

The loop of `jit_compile_pass` of `srcs/jit/jit.c` as far as it calls `ir_gen`, and what the
calls of a generated program return.
-/

namespace TinyCompile.Compile

open TinyCompile.Machine TinyCompile.Source TinyCompile.Logic TinyCompile.Ir

/-! ## Generating a program -/

/-- `func->function.is_prototype`, negated. -/
def isDefinition : ASTNode → Bool
  | .function _ _ _ _ _ isPrototype => !isPrototype
  | _ => false

/-- `func->function.name`. -/
def functionName : ASTNode → StringView
  | .function _ name _ _ _ _ => name
  | _ => []

/-- The functions `jit_compile_pass` comes to, with the names of their files. -/
def CompilationContext.definitions (ctx : CompilationContext) : List (String × ASTNode) :=
  ctx.units.flatMap fun unit =>
    if unit.parsedOk then
      (unit.declarations.filter isDefinition).map fun func => (unit.file.name, func)
    else []

/-- A function in the registry, by its code before it is compiled. -/
structure Generated where
  name : StringView
  code : List IRInstruction
  deriving DecidableEq, Repr

/-- `jit_compile_pass` up to the calls of `ir_gen`; false where it stops.  `fresh i` is what
the arena returns for function number `i`. -/
def generateAll (fresh : Nat → IRFunction) :
    List (String × ASTNode) → Nat → ErrorContext →
      Except Ir.Stop (List Generated × ErrorContext × Bool)
  | [], _, errors => return ([], errors, true)
  | (filename, func) :: rest, i, errors => do
      let (generated, s) ← irGen (fresh i) func errors (some filename)
      if generated then
        let (program, errors, ok) ← generateAll fresh rest (i + 1) s.f.errors
        return (⟨functionName func, s.f.instructions⟩ :: program, errors, ok)
      else
        let line := (func.info?.map (·.line)).getD 0
        let message := "IR generation failed for function '" ++ svText (functionName func) ++ "'"
        return ([], errorAdd s.f.errors .system .fatal (some filename) line 0 message, false)

/-- All functions of a program are generated, and no error is reported. -/
def Generates (fresh : Nat → IRFunction) (ctx : CompilationContext) (program : List Generated) :
    Prop :=
  generateAll fresh ctx.definitions 0 ctx.errors = .ok (program, ctx.errors, true)

/-! ## Running a program -/

/-- The code of the first function of a name, as `jit_link_all` finds it. -/
def codeOf (program : List Generated) (name : StringView) : Option (List IRInstruction) :=
  (program.find? fun g => g.name == name).map (·.code)

/-- At the start of a call parameter number `i` is in register `i + 1`; the other registers
and the slots hold what they held before. -/
def enter (before : RunState) (args : List Word) : RunState where
  regs := fun r => if r = 0 then before.regs r else (args[r - 1]?).getD (before.regs r)
  slots := before.slots
  args := []
  calls := []

/-- What a call returns: the code of the function returns it, where the calls in it return
what they return.  `before` is what the registers and the slots hold when a call is made. -/
inductive CallReturns (program : List Generated) (before : Call → RunState) : Call → Word → Prop
  | intro {call : Call} {code : List IRInstruction} {oracle : Oracle} {s : RunState} {v : Word}
      (hcode : codeOf program call.name = some code)
      (hcalls : ∀ call' v', oracle call' = some v' → CallReturns program before call' v')
      (hrun : Results (runStep oracle code) (0, enter (before call) call.args) (v, s)) :
      CallReturns program before call v

/-- A call returns at most one value. -/
theorem CallReturns.unique {program : List Generated} {before : Call → RunState} {call : Call}
    {v v' : Word} (h : CallReturns program before call v)
    (h' : CallReturns program before call v') : v = v' := by
  induction h generalizing v' with
  | @intro call code oracle s v hcode _ hrun ih =>
    cases h' with
    | @intro _ code' oracle' s' _ hcode' hcalls' hrun' =>
      cases hcode.symm.trans hcode'
      have horacle : Agree oracle oracle' := fun call' w w' hw hw' =>
        ih call' w hw (hcalls' call' w' hw')
      exact congrArg Prod.fst (hrun.agree (runStep_agree horacle) hrun')

/-- What a call returns within so many steps of every call, where calls are nested at most as
deep as the bound says. -/
def runCall (program : List Generated) (before : Call → RunState) (fuel : Nat) : Nat → Oracle
  | 0, _ => none
  | depth + 1, call =>
      (codeOf program call.name).bind fun code =>
        (iterate (runStep (runCall program before fuel depth) code) fuel
          (0, enter (before call) call.args)).map (·.1)

theorem callReturns_of_runCall {program : List Generated} {before : Call → RunState}
    {fuel depth : Nat} {call : Call} {v : Word}
    (h : runCall program before fuel depth call = some v) : CallReturns program before call v := by
  induction depth generalizing call v with
  | zero => cases h
  | succ depth ih =>
    obtain ⟨code, hcode, hmap⟩ := Option.bind_eq_some_iff.mp h
    obtain ⟨⟨w, s⟩, hrun, rfl⟩ := Option.map_eq_some_iff.mp hmap
    exact .intro hcode (fun call' v' h' => ih h') ⟨fuel, hrun⟩

/-! ## Programs that do the same -/

/-- Two functions of one name return the same after the same calls. -/
def SameFunction (g g' : Generated) : Prop :=
  g'.name = g.name ∧
    ∀ (oracle : Oracle) (start : RunState) (v : Word) (calls : List Call), start.args = [] →
      ((∃ s, Results (runStep oracle g'.code) (0, start) (v, s) ∧ s.calls = calls) ↔
        ∃ s, Results (runStep oracle g.code) (0, start) (v, s) ∧ s.calls = calls)

theorem SameFunction.symm {g g' : Generated} (h : SameFunction g g') : SameFunction g' g :=
  ⟨h.1.symm, fun oracle start v calls hargs => (h.2 oracle start v calls hargs).symm⟩

theorem codeOf_same {program program' : List Generated}
    (h : List.Forall₂ SameFunction program program') {name : StringView}
    {code : List IRInstruction} (hcode : codeOf program name = some code) :
    ∃ code', codeOf program' name = some code' ∧ SameFunction ⟨name, code⟩ ⟨name, code'⟩ := by
  induction h with
  | nil => cases hcode
  | @cons g g' rest rest' hg hrest ih =>
    unfold codeOf at hcode ih ⊢
    rw [List.find?_cons] at hcode ⊢
    rw [hg.1]
    by_cases hname : (g.name == name) = true
    · simp only [hname] at hcode ⊢
      cases hcode
      exact ⟨g'.code, rfl, rfl, hg.2⟩
    · simp only [hname] at hcode ⊢
      exact ih hcode

/-- Programs of the same functions return the same from every call. -/
theorem CallReturns.of_same {program program' : List Generated} {before : Call → RunState}
    (h : List.Forall₂ SameFunction program program') {call : Call} {v : Word}
    (hreturns : CallReturns program before call v) : CallReturns program' before call v := by
  induction hreturns with
  | @intro call code oracle s v hcode hcalls hrun ih =>
    obtain ⟨code', hcode', -, hsame⟩ := codeOf_same h hcode
    obtain ⟨s', hrun', -⟩ := (hsame oracle _ v s.calls rfl).mpr ⟨s, hrun, rfl⟩
    exact .intro hcode' ih hrun'

theorem callReturns_iff {program program' : List Generated}
    (h : List.Forall₂ SameFunction program program') (before : Call → RunState) (call : Call)
    (v : Word) : CallReturns program' before call v ↔ CallReturns program before call v :=
  ⟨.of_same (h.imp fun _ _ => SameFunction.symm).flip, .of_same h⟩

end TinyCompile.Compile
