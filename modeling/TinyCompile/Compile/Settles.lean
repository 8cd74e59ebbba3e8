import TinyCompile.Compile.Ends
import TinyCompile.Ir.Frames

set_option autoImplicit false

/-!
# Compile: what the calls of a program come to

A call settles with a value if its function returns the value whatever the registers and the
slots hold that nothing was written to.  Calls are nested at most so deep.  What a call comes
to in the trees, it comes to in the instructions that are generated from them.
-/

namespace TinyCompile.Compile

open TinyCompile.Machine TinyCompile.Source TinyCompile.Logic TinyCompile.Ir

/-! ## Calls of generated functions -/

/-- A call with calls nested at most `n` deep settles with a value. -/
inductive Settles (program : List Generated) : Nat → Call → Word → Prop
  | intro {n : Nat} {call : Call} {code : List IRInstruction} {oracle : Oracle} {v : Word}
      (hcode : codeOf program call.name = some code)
      (hcalls : ∀ call' v', oracle call' = some v' → Settles program n call' v')
      (hruns : ReturnsOn oracle code call.args v) : Settles program (n + 1) call v

section

variable {program : List Generated} {n : Nat} {call : Call} {v : Word}

theorem receives_enter (before : RunState) (args : List Word) :
    Receives args (enter before args) where
  regs := by
    intro k hk
    unfold enter
    simp only [if_neg (Nat.succ_ne_zero k), Nat.add_sub_cancel, List.getElem?_eq_getElem hk,
      Option.getD_some]
  args := rfl

/-- A call that settles returns, whatever is in the registers and the slots. -/
theorem Settles.callReturns (h : Settles program n call v) (before : Call → RunState) :
    CallReturns program before call v := by
  induction h with
  | intro hcode hcalls hruns ih =>
    obtain ⟨s, hrun⟩ := hruns _ (receives_enter (before _) _)
    exact .intro hcode (fun call' v' h' => ih call' v' h') hrun

end

/-! ## Calls of functions -/

/-- A store in which a function starts on these arguments. -/
def Passed (args : List Word) (m : Store) : Prop :=
  ∀ k (hk : k < args.length), m.params (k + 1) = args[k]

/-- The body of a function returns a value on these arguments, whatever its variables hold
before they are written. -/
def BodyReturns (oracle : Oracle) (stack : Nat) (func : ASTNode) (args : List Word)
    (v : Word) : Prop :=
  ∀ m, Passed args m → ∃ fuel m', evalBody oracle fuel stack func m = some (.returned v m')

/-- The first definition of a name. -/
def definitionOf (definitions : List (String × ASTNode)) (name : StringView) : Option ASTNode :=
  (definitions.find? fun d => functionName d.2 == name).map (·.2)

/-- A call comes to a value in the trees: the body of the first function of that name returns
it, and calls are nested at most `n` deep. -/
inductive Evaluates (definitions : List (String × ASTNode)) : Nat → Call → Word → Prop
  | intro {n : Nat} {call : Call} {func : ASTNode} {oracle : Oracle} {v : Word}
      (hfunc : definitionOf definitions call.name = some func)
      (hcalls : ∀ call' v', oracle call' = some v' → Evaluates definitions n call' v')
      (hbody : BodyReturns oracle 0 func call.args v) : Evaluates definitions (n + 1) call v

/-! ## From trees to instructions -/

section

variable {fresh : IRFunction} {func : ASTNode} {errors : ErrorContext}
  {filename : Option String} {s : GenState}

/-- The instructions of a function return what its body returns. -/
theorem returnsOn_iff_body {oracle : Oracle} {args : List Word} {v : Word}
    (hcomplete : func.CompleteFunction)
    (hgen : irGen fresh func errors filename = .ok (true, s)) (herrors : s.f.errors = errors) :
    ReturnsOn oracle s.f.instructions args v ↔
      BodyReturns oracle fresh.stackCount func args v := by
  obtain ⟨-, hcode, -, hquiet⟩ := irGen_wellFormed hgen herrors
  have hok : ¬ OutOfVregs (lowerRoot fresh.stackCount func).history :=
    Unreported.hasVregs hquiet
  cases func with
  | function info name returnType params body isPrototype =>
    cases body with
    | block bodyInfo statements =>
      have hiff := fun rs hargs v calls => @function_returns_iff s.f.instructions oracle
        fresh.stackCount info bodyInfo name returnType params statements isPrototype rs v calls
        hcode hok hargs
      constructor
      · intro hreturns m hpassed
        obtain ⟨w, hrun⟩ := hreturns m.state ⟨hpassed, rfl⟩
        obtain ⟨fuel, m', hbody, -⟩ := (hiff m.state rfl v w.calls).mp ⟨w, hrun, rfl⟩
        exact ⟨fuel, m', hbody⟩
      · intro hbody rs hreceives
        obtain ⟨fuel, m, hm⟩ := hbody rs.store hreceives.regs
        obtain ⟨w, hrun, -⟩ := (hiff rs hreceives.args v m.calls).mpr ⟨fuel, m, hm, rfl⟩
        exact ⟨w, hrun⟩
    | _ => exact absurd hcomplete id
  | _ => exact absurd hcomplete id

/-- A definition and what is generated from it. -/
def GeneratedTo (d : String × ASTNode) (g : Generated) : Prop :=
  functionName d.2 = g.name ∧
    ∀ oracle args v, ReturnsOn oracle g.code args v ↔ BodyReturns oracle 0 d.2 args v

end

section

variable {fresh : Nat → IRFunction} {definitions : List (String × ASTNode)} {i : Nat}
  {errors : ErrorContext} {program : List Generated}

/-- Where all of a program is generated without an error, so is its first function. -/
theorem generateAll_cons {d : String × ASTNode}
    (h : generateAll fresh (d :: definitions) i errors = .ok (program, errors, true)) :
    ∃ s program', irGen (fresh i) d.2 errors (some d.1) = .ok (true, s) ∧ s.f.errors = errors ∧
      generateAll fresh definitions (i + 1) errors = .ok (program', errors, true) ∧
      program = ⟨functionName d.2, s.f.instructions⟩ :: program' := by
  unfold generateAll at h
  obtain ⟨⟨generated, s⟩, hrun, hnext⟩ := ok_of_bind h
  cases generated with
  | false => cases hnext
  | true =>
    obtain ⟨⟨program', errors', ok⟩, hrest, hend⟩ := ok_of_bind hnext
    cases hend
    have hle := (generateAll_errors hrest).kept.length_le
    have hgen := (irGen_returns hrun).1
    have hunreported : Unreported (lowerRoot (fresh i).stackCount d.2).history :=
      fun _ hmem => drops_of_length (hgen.errors ▸ hle) hmem
    have hsame : s.f.errors = errors :=
      hgen.errors.trans (noteHistory_unreported hunreported _ _ _)
    rw [hsame] at hrest
    exact ⟨s, program', hrun, hsame, hrest, rfl⟩

theorem generateAll_generated (hstack : ∀ i, (fresh i).stackCount = 0)
    (hcomplete : ∀ d ∈ definitions, d.2.CompleteFunction)
    (h : generateAll fresh definitions i errors = .ok (program, errors, true)) :
    List.Forall₂ GeneratedTo definitions program := by
  induction definitions generalizing i program with
  | nil =>
    cases h
    exact .nil
  | cons d definitions ih =>
    obtain ⟨s, program', hrun, hsame, hrest, rfl⟩ := generateAll_cons h
    refine .cons ⟨rfl, fun oracle args v => ?_⟩
      (ih (fun d hd => hcomplete d (List.mem_cons_of_mem _ hd)) hrest)
    rw [returnsOn_iff_body (hcomplete d List.mem_cons_self) hrun hsame, hstack i]

/-- The first function of a name is generated from the first definition of the name. -/
theorem codeOf_generated (h : List.Forall₂ GeneratedTo definitions program)
    (name : StringView) : Option.Rel (fun func code => ∀ oracle args v,
      ReturnsOn oracle code args v ↔ BodyReturns oracle 0 func args v)
      (definitionOf definitions name) (codeOf program name) := by
  unfold definitionOf codeOf
  induction h with
  | nil => exact .none
  | @cons d g definitions program hd _ ih =>
    obtain ⟨hname, hreturns⟩ := hd
    rw [List.find?_cons, List.find?_cons, ← hname]
    cases functionName d.2 == name with
    | true => exact .some hreturns
    | false => exact ih

/-- What a call comes to in the trees is what it settles with in the instructions. -/
theorem settles_iff_evaluates (hprogram : List.Forall₂ GeneratedTo definitions program) {n : Nat}
    {call : Call} {v : Word} : Settles program n call v ↔ Evaluates definitions n call v := by
  constructor
  · intro h
    induction h with
    | @intro n call code oracle v hcode hcalls hruns ih =>
      have hfunc := codeOf_generated hprogram call.name
      rw [hcode] at hfunc
      generalize hdef : definitionOf definitions call.name = found at hfunc
      cases hfunc with
      | some hreturns => exact .intro hdef ih ((hreturns _ _ _).mp hruns)
  · intro h
    induction h with
    | @intro n call func oracle v hfunc hcalls hbody ih =>
      have hcode := codeOf_generated hprogram call.name
      rw [hfunc] at hcode
      generalize hfound : codeOf program call.name = found at hcode
      cases hcode with
      | some hreturns => exact .intro hfound ih ((hreturns _ _ _).mpr hbody)

end

/-! ## Accepted programs -/

/-- No function of a program has more parameters than the array has that they are read into.
Behind the sixteenth, `parse_parameters` writes over what follows the array. -/
def CompilationContext.ParamsFit (ctx : CompilationContext) : Prop :=
  ∀ unit ∈ ctx.units, ∀ node ∈ unit.declarations, node.params.length ≤ Parser.paramCapacity

instance (ctx : CompilationContext) : Decidable ctx.ParamsFit :=
  inferInstanceAs (Decidable (∀ unit ∈ ctx.units, ∀ node ∈ unit.declarations, _ ≤ _))

/-- A program that is parsed without an error and accepted.  Warnings do not matter. -/
structure AcceptedProgram (ctx₀ parsed ctx : CompilationContext) : Prop where
  parse : compileParseAll ctx₀ = .ok (parsed, true)
  clean : parsed.errors.nodes = ctx₀.errors.nodes
  params : parsed.ParamsFit
  analyze : compileAnalyzeAll parsed = .ok (ctx, true)

/-- The functions of an accepted program are complete. -/
theorem AcceptedProgram.complete {ctx₀ parsed ctx : CompilationContext}
    (h : AcceptedProgram ctx₀ parsed ctx) : ∀ d ∈ ctx.definitions, d.2.CompleteFunction :=
  compileAnalyzeAll_complete h.analyze (complete_of_parse h.parse h.clean)

/-- In a program that is accepted and generated without an error, what a call comes to in the
trees is what it settles with in the instructions. -/
theorem settles_iff {fresh : Nat → IRFunction} {ctx₀ parsed ctx : CompilationContext}
    {program : List Generated} (haccepted : AcceptedProgram ctx₀ parsed ctx)
    (hslots : ∀ i, (fresh i).stackCount = 0) (hgenerates : Generates fresh ctx program) (n : Nat)
    (call : Call) (v : Word) : Settles program n call v ↔ Evaluates ctx.definitions n call v :=
  settles_iff_evaluates (generateAll_generated hslots haccepted.complete hgenerates)

/-! ## Samples -/

/-- The trees of a file that is accepted. -/
def treesOf (text : String) : Option (CompilationContext × CompilationContext) :=
  match compileParseAll (oneFile text) with
  | .ok (parsed, true) =>
      if parsed.errors.nodes = [] ∧ parsed.ParamsFit then
        match compileAnalyzeAll parsed with
        | .ok (ctx, true) => some (parsed, ctx)
        | _ => none
      else none
  | _ => none

theorem treesOf_eq_some {text : String} {parsed ctx : CompilationContext}
    (h : treesOf text = some (parsed, ctx)) : AcceptedProgram (oneFile text) parsed ctx := by
  unfold treesOf at h
  split at h
  · rename_i parsed' hparse
    split at h
    · rename_i hfits
      split at h
      · rename_i ctx' hanalyze
        cases h
        exact ⟨hparse, hfits.1, hfits.2, hanalyze⟩
      · cases h
    · cases h
  · cases h

/-- A function that returns its argument, and one that calls it. -/
def twoFunctions : String :=
  "int f(int n) \x7b return n; \x7d int main() \x7b return f(2); \x7d"

/-- The trees of `twoFunctions`. -/
def isTwoFunctions : List (String × ASTNode) → Bool
  | [(_, .function _ f _ [n] (.block _ [.returnStmt _ (.identifier _ n')]) _),
      (_, .function _ g _ [] (.block _ [.returnStmt _ (.call _ f' [.number _ two])]) _)] =>
      f == svOf "f" && g == svOf "main" && f' == svOf "f" && n.name == n' && two == svOf "2"
  | _ => false

/-- The oracle that knows one call. -/
def onlyCall (call : Call) (v : Word) : Oracle :=
  fun call' => if call' = call then some v else none

theorem evaluates_twoFunctions {definitions : List (String × ASTNode)}
    (h : isTwoFunctions definitions = true) :
    Evaluates definitions 2 ⟨svOf "main", []⟩ 2 := by
  unfold isTwoFunctions at h
  split at h
  · simp only [Bool.and_eq_true, beq_iff_eq] at h
    obtain ⟨⟨⟨⟨rfl, rfl⟩, rfl⟩, rfl⟩, rfl⟩ := h
    refine @Evaluates.intro _ _ _ _ (onlyCall ⟨svOf "f", [2]⟩ 2) _ rfl (fun call' v' hsome => ?_)
      fun m _ => ⟨0, _, rfl⟩
    obtain ⟨rfl, hv⟩ := Option.ite_none_right_eq_some.mp hsome
    obtain rfl := Option.some.inj hv
    refine @Evaluates.intro _ _ _ _ noCalls _ rfl (fun _ _ hnone => by cases hnone)
      fun m hpassed => ?_
    have hparam : m.params 1 = 2 := hpassed 0 (by decide)
    refine ⟨0, m, ?_⟩
    simp [evalBody, evalStmts, evalStmt, ASTNode.isNull, evalExpr, paramEnv, withValue,
      Store.read, Outcome.andThen, hparam]
  · cases h

/-- What is generated of a file. -/
def generatedFrom (text : String) :
    Option (CompilationContext × CompilationContext × List Generated) :=
  (treesOf text).bind fun r =>
    match generateAll (fun _ => .zeroed) r.2.definitions 0 r.2.errors with
    | .ok (program, errors, true) => if errors = r.2.errors then some (r.1, r.2, program) else none
    | _ => none

theorem generatedFrom_eq_some {text : String} {parsed ctx : CompilationContext}
    {program : List Generated} (h : generatedFrom text = some (parsed, ctx, program)) :
    treesOf text = some (parsed, ctx) ∧ Generates (fun _ => .zeroed) ctx program := by
  obtain ⟨r, htrees, hrest⟩ := Option.bind_eq_some_iff.mp h
  split at hrest
  · rename_i program' errors hrun
    split at hrest
    · rename_i hsame
      cases hrest
      exact ⟨htrees, hrun.trans (by rw [hsame])⟩
    · cases hrest
  · cases hrest

theorem settles_iff_twoFunctions : ∃ ctx program,
    Generates (fun _ => .zeroed) ctx program ∧ isTwoFunctions ctx.definitions = true ∧
      (Settles program 2 ⟨svOf "main", []⟩ 2 ↔
        Evaluates ctx.definitions 2 ⟨svOf "main", []⟩ 2) := by
  have hchecks : (generatedFrom twoFunctions).any
      (fun r => isTwoFunctions r.2.1.definitions) = true := by decide +kernel
  obtain ⟨⟨parsed, ctx, program⟩, hfrom, htwo⟩ := (Option.any_eq_true _ _).mp hchecks
  obtain ⟨htrees, hgenerates⟩ := generatedFrom_eq_some hfrom
  exact ⟨ctx, program, hgenerates, htwo,
    settles_iff (treesOf_eq_some htrees) (fun _ => rfl) hgenerates 2 _ 2⟩

end TinyCompile.Compile
