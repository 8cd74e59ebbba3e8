import TinyCompile.Compile.Compiles
import TinyCompile.Ir.Follow

set_option autoImplicit false

/-!
# Compile: programs compute what C says

A run of a function in C, in unbounded integers, is a run of its machine code as long as no
value leaves the limits of the code.
-/

namespace TinyCompile.Compile

open TinyCompile.Machine TinyCompile.Source TinyCompile.Logic TinyCompile.Semantic TinyCompile.Ir
open TinyCompile.Jit

/-! ## Functions -/

/-- The declarations of a function stand in blocks, as C's grammar has it. -/
def bodyDeclaresInBlocks : ASTNode → Bool
  | .function _ _ _ _ (.block _ statements) _ => allDeclareInBlocks statements
  | _ => true

/-- The variables in the body of a function have the types they are declared with. -/
def AnnotatedFunction : ASTNode → Prop
  | .function _ _ _ params (.block _ statements) _ =>
      AnnotatedStmts (envTyping (paramEnv [] params 0)) statements
  | _ => True

/-- Both passes know the variables by the same types. -/
theorem typingOf_inScope {vars : Vars} {env : Env} (h : InScope vars env) :
    typingOf vars = envTyping env := by
  induction h with
  | nil => rfl
  | cons hv _ ih => exact congrArg₂ List.cons (Prod.ext hv.name hv.type) ih

/-- An accepted function is annotated. -/
theorem annotatedFunction {Γ : Context} {func func' : ASTNode} {uses : Uses}
    (h : TypesDeclaration Γ func func' uses) (hbare : Parser.BareDeclaration func)
    (hblocks : bodyDeclaresInBlocks func' = true) : AnnotatedFunction func' := by
  cases h with
  | prototype info name returnType params body =>
    cases body with
    | block _ _ => exact absurd hbare.1 (by decide)
    | _ => trivial
  | @definition info _ _ _ params statements statements' _ _ hstatements =>
    have hannotated := typesStmts_annotated hstatements hbare.2 hblocks
    rwa [typingOf_inScope (InScope.params info.line params 0 .nil)] at hannotated
  | bodyless _ _ _ _ hbody =>
    rename_i body
    cases body with
    | block info statements => exact absurd rfl (hbody info statements)
    | _ => trivial

/-! ## Calls -/

section

variable {params : List Parameter} {args : List Int}

/-- The parameters of a function are different places, none of them a slot. -/
theorem slotted_params (params : List Parameter) {env : Env} (i : Nat) {stack : Nat}
    (h : Slotted env stack)
    (hbelow : ∀ e ∈ env, e.2.binding.isStack = false ∧ e.2.binding.index ≤ i) :
    Slotted (paramEnv env params i) stack := by
  induction params generalizing env i with
  | nil => exact h
  | cons param params ih =>
    refine ih (i + 1) ⟨List.pairwise_cons.mpr ⟨fun e he heq => ?_, h.apart⟩,
      List.forall_mem_cons.mpr ⟨Bool.noConfusion, h.below⟩⟩
      (List.forall_mem_cons.mpr ⟨⟨rfl, Nat.le_refl _⟩, fun e he => ?_⟩)
    · have hindex := (hbelow e he).2
      rw [← heq] at hindex
      exact Nat.not_succ_le_self i hindex
    · obtain ⟨hstack, hindex⟩ := hbelow e he
      exact ⟨hstack, Nat.le_succ_of_le hindex⟩

/-- The arguments in the registers of the parameters. -/
theorem mirrors_params {m : Store} {F F' : Frame} {env : Env} {i : Nat}
    (h : exactParams compiledLimits F params args = some F') (hmirrors : Mirrors m F env)
    (hpassed : ∀ k (hk : k < args.length), m.params (i + k + 1) = BitVec.ofInt 64 args[k]) :
    Mirrors m F' (paramEnv env params i) ∧ ∀ z ∈ args, InRange z := by
  induction params generalizing args F env i with
  | nil =>
    cases args with
    | nil =>
      cases h
      exact ⟨hmirrors, fun _ hz => by cases hz⟩
    | cons => cases h
  | cons param params ih =>
    cases args with
    | nil => cases h
    | cons z args =>
      obtain ⟨hstored, hrest⟩ := Option.ite_none_right_eq_some.mp h
      have hz := stored_inRange hstored
      have hfirst : m.params (i + 1) = BitVec.ofInt 64 z := hpassed 0 (Nat.succ_pos _)
      have hmirrors' : Mirrors m (⟨param.name, param.type, false, some z⟩ :: F)
          ((param.name, ⟨.param i, param.type, ⟨i + 1, false⟩⟩) :: env) := by
        refine .cons ⟨rfl, rfl, rfl, fun z' hz' => ?_⟩ hmirrors
        obtain rfl := Option.some.inj hz'
        exact ⟨hz, hfirst⟩
      obtain ⟨hall, hargs⟩ := ih (i := i + 1) hrest hmirrors' fun k hk => by
        have hpassed' := hpassed (k + 1) (Nat.succ_lt_succ hk)
        rwa [show i + (k + 1) + 1 = i + 1 + k + 1 by omega] at hpassed'
      exact ⟨hall, List.forall_mem_cons.mpr ⟨hz, hargs⟩⟩

end

section

variable {oracle : Oracle} {callee : StringView → List Int → Option Value} {fuel : Nat}
  {func : ASTNode} {args : List Int} {v : Value}

/-- The body of a function returns what the function returns in C. -/
theorem exactBody_returns (hcallee : Answered oracle callee) (hannotated : AnnotatedFunction func)
    (hblocks : bodyDeclaresInBlocks func = true)
    (h : exactBody compiledLimits callee fuel func args = some v) :
    InRange v.value ∧ (∀ z ∈ args, InRange z) ∧
      BodyReturns oracle 0 func (wordsOf args) (BitVec.ofInt 64 v.value) := by
  unfold exactBody at h
  split at h
  · rename_i info name returnType params bodyInfo statements isPrototype
    obtain ⟨F, hparams, hbody⟩ := Option.bind_eq_some_iff.mp h
    obtain ⟨r, hr, hvalue⟩ := Option.bind_eq_some_iff.mp hbody
    have hslots : Slotted (paramEnv [] params 0) 0 :=
      slotted_params params 0 ⟨.nil, fun _ he => by cases he⟩ fun _ he => by cases he
    have hrun : ∀ m, Passed (wordsOf args) m → (∀ z ∈ args, InRange z) ∧
        ∃ o, evalBody oracle fuel 0
          (.function info name returnType params (.block bodyInfo statements) isPrototype) m =
            some o ∧ EndsAs (scopeStmts (paramEnv [] params 0) statements 0).1 r o := by
      intro m hpassed
      obtain ⟨hmirrors, hargs⟩ := mirrors_params (i := 0) hparams .nil fun k hk => by
        have hk' := hpassed k (by rwa [List.length_map])
        rw [List.getElem_map] at hk'
        rw [Nat.zero_add]
        exact hk'
      exact ⟨hargs, exactStmts_follows hcallee returnType fuel statements hmirrors hslots
        hannotated hblocks hr⟩
    have hany : ∃ m : Store, Passed (wordsOf args) m :=
      ⟨⟨fun k => (wordsOf args)[k - 1]?.getD 0, fun _ => 0, []⟩, fun k hk => by
        show (wordsOf args)[k + 1 - 1]?.getD 0 = _
        rw [Nat.add_sub_cancel, List.getElem?_eq_getElem hk]
        rfl⟩
    cases r with
    | next F' => cases hvalue
    | returned z =>
      obtain rfl := Option.some.inj hvalue
      obtain ⟨m, hpassed⟩ := hany
      obtain ⟨hargs, o, -, hends⟩ := hrun m hpassed
      cases hends with
      | returned hz m' =>
        refine ⟨hz, hargs, fun m hpassed => ?_⟩
        obtain ⟨-, o, ho, hends⟩ := hrun m hpassed
        cases hends with
        | returned _ m' => exact ⟨fuel, m', ho⟩
  · cases h

end

section

variable {definitions : List (String × ASTNode)} {fuel depth : Nat} {name : StringView}
  {args : List Int} {v : Value}

theorem wordsOf_toInt (ws : List Word) : wordsOf (ws.map BitVec.toInt) = ws := by
  rw [wordsOf, List.map_map]
  exact (List.map_congr_left fun w _ => BitVec.ofInt_toInt).trans (List.map_id ws)

theorem toInt_wordsOf {zs : List Int} (h : ∀ z ∈ zs, InRange z) :
    (wordsOf zs).map BitVec.toInt = zs := by
  rw [wordsOf, List.map_map]
  exact (List.map_congr_left fun z hz => (h z hz).toInt).trans (List.map_id zs)

/-- A call that has a value in C has it in the trees. -/
theorem exactCall_evaluates (hannotated : ∀ d ∈ definitions, AnnotatedFunction d.2)
    (hblocks : ∀ d ∈ definitions, bodyDeclaresInBlocks d.2 = true)
    (h : exactCall compiledLimits (definitionOf definitions) fuel depth name args = some v) :
    InRange v.value ∧ (∀ z ∈ args, InRange z) ∧
      Evaluates definitions depth ⟨name, wordsOf args⟩ (BitVec.ofInt 64 v.value) := by
  induction depth generalizing name args v with
  | zero => cases h
  | succ depth ih =>
    obtain ⟨func, hfunc, hbody⟩ := Option.bind_eq_some_iff.mp h
    obtain ⟨d, hd, hfound⟩ := Option.map_eq_some_iff.mp hfunc
    have hmem := List.mem_of_find?_eq_some hd
    -- the oracle that knows what the calls come to in C
    let oracle : Oracle := fun call =>
      (exactCall compiledLimits (definitionOf definitions) fuel depth call.name
        (call.args.map BitVec.toInt)).map fun v => BitVec.ofInt 64 v.value
    have hanswered : Answered oracle
        (exactCall compiledLimits (definitionOf definitions) fuel depth) := by
      intro name' args' v' hcall
      obtain ⟨hv', hargs', -⟩ := ih hcall
      refine ⟨hv', ?_⟩
      show Option.map _ (exactCall _ _ _ _ _ ((wordsOf args').map BitVec.toInt)) = _
      rw [toInt_wordsOf hargs', hcall]
      rfl
    obtain ⟨hv, hargs, hreturns⟩ := exactBody_returns hanswered (hfound ▸ hannotated d hmem)
      (hfound ▸ hblocks d hmem) hbody
    refine ⟨hv, hargs, .intro hfunc (fun call' w hw => ?_) hreturns⟩
    obtain ⟨v', hcall, rfl⟩ := Option.map_eq_some_iff.mp hw
    have hevaluates := (ih hcall).2.2
    rwa [wordsOf_toInt] at hevaluates

end

/-! ## Programs -/

section

variable {fresh : Nat → IRFunction} {buffers : Nat → Ptr} {ctx₀ ctx : CompilationContext}
  {s : JITState}

/-- What a call comes to in C, in unbounded integers, the machine code of its function returns,
in a program that is built and declares in blocks only.  The run has to stay within the limits
of the code, which are narrower than those of C. -/
theorem built_exact (h : Built fresh buffers ctx₀ ctx s)
    (harenas : ArenasServe fresh (builtJobs fresh buffers ctx))
    (hsites : (calledNames (builtJobs fresh buffers ctx)).length ≤ maxCallSites)
    (hblocks : ∀ d ∈ ctx.definitions, bodyDeclaresInBlocks d.2 = true) {room fuel depth : Nat}
    {name : StringView} {args : List Int} {v : Value}
    (hexact :
      exactCall compiledLimits (definitionOf ctx.definitions) fuel depth name args = some v)
    (hroom : room + depth * 2 ^ 33 < 2 ^ 62) :
    exactCall cLimits (definitionOf ctx.definitions) fuel depth name args = some v ∧
      (BitVec.ofInt 64 v.value).toInt = v.value ∧
      Serves (jitLinkAll s ctx.errors).2.1 room (findTarget s.ctx.registry name) (wordsOf args)
        (BitVec.ofInt 64 v.value) ∧
      (name = svOf "main" → mainCode s.ctx.registry = some (findTarget s.ctx.registry name)) := by
  obtain ⟨parsed, haccepted⟩ := h.accepted
  have hannotated : ∀ d ∈ ctx.definitions, AnnotatedFunction d.2 := by
    intro d hd
    obtain ⟨Γ, func, uses, htypes, hbare⟩ :=
      typed_definitions haccepted.parse haccepted.analyze d hd
    exact annotatedFunction htypes hbare (hblocks d hd)
  obtain ⟨hv, -, hevaluates⟩ := exactCall_evaluates hannotated hblocks hexact
  obtain ⟨hprogram, hgenerated⟩ := h.program harenas hsites
  have hsettles := (settles_iff_evaluates hgenerated).mpr hevaluates
  exact ⟨exactCall_extends compiledLimits_within _ _ _ _ _ v hexact, hv.toInt,
    hprogram.serves hsettles hroom, hprogram.mainCode hsettles⟩

end

/-! ## Samples -/

/-- The factorial of five. -/
def factorial : String :=
  "int fact(int n) \x7b if (n < 2) \x7b return 1; \x7d return n * fact(n - 1); \x7d " ++
  "int main() \x7b return fact(5); \x7d"

/-- `main` returns 120, in C and within the limits of the code. -/
def countsTo120 (ctx : CompilationContext) : Bool :=
  hasPlaces ctx && ctx.definitions.all (fun d => bodyDeclaresInBlocks d.2) &&
    exactCall compiledLimits (definitionOf ctx.definitions) 0 6 (svOf "main") [] ==
      some ⟨.int, 120⟩

theorem built_exact_factorial : ∃ ctx s,
    Built (fun _ => .zeroed) spreadBuffers (oneFile factorial) ctx s ∧
      exactCall cLimits (definitionOf ctx.definitions) 0 6 (svOf "main") [] = some ⟨.int, 120⟩ ∧
      (BitVec.ofInt 64 120).toInt = 120 ∧
      Serves (jitLinkAll s ctx.errors).2.1 (2 ^ 40) (findTarget s.ctx.registry (svOf "main")) []
        (BitVec.ofInt 64 120) ∧
      (svOf "main" = svOf "main" →
        mainCode s.ctx.registry = some (findTarget s.ctx.registry (svOf "main"))) := by
  have hchecks : (generatedFrom factorial).any (fun r => countsTo120 r.2.1) = true := by
    decide +kernel
  obtain ⟨⟨parsed, ctx, program⟩, hfrom, hcounts⟩ := (Option.any_eq_true _ _).mp hchecks
  simp only [countsTo120, Bool.and_eq_true, List.all_eq_true, beq_iff_eq] at hcounts
  obtain ⟨⟨hplaces, hblocks⟩, hexact⟩ := hcounts
  obtain ⟨s, hbuilt, harenas, hsites⟩ := built_of_generated hfrom hplaces
  exact ⟨ctx, s, hbuilt, built_exact hbuilt harenas hsites hblocks hexact (by decide)⟩

end TinyCompile.Compile
