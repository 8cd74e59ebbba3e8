import TinyCompile.Compile.Native
import TinyCompile.Ir.Known

set_option autoImplicit false

/-!
# Compile: which programs are compiled

Whether the compiler gets from the trees of an accepted program to running its `main` is
decided on the trees: by the names the analyzer does not look at, by the limits of the
generator and the compiler, and by the functions that are called.
-/

namespace TinyCompile.Compile

open TinyCompile.Machine TinyCompile.Source TinyCompile.Logic TinyCompile.Ir TinyCompile.Jit

/-! ## Functions -/

/-- What the generator and the compiler need of an accepted function. -/
structure Compiles (func : ASTNode) : Prop where
  resolves : resolvesFunction func = true
  room : HasRoom 0 func
  /-- `ir_print` does not come to the end of longer names. -/
  name : PrintableName (functionName func)
  labels : (sizeFunction 0 func).labels < maxLabels

instance (func : ASTNode) : Decidable (Compiles func) :=
  decidable_of_iff (resolvesFunction func = true ∧ HasRoom 0 func ∧
      PrintableName (functionName func) ∧ (sizeFunction 0 func).labels < maxLabels)
    ⟨fun h => ⟨h.1, h.2.1, h.2.2.1, h.2.2.2⟩,
      fun h => ⟨h.resolves, h.room, h.name, h.labels⟩⟩

/-- The functions some definitions call. -/
def callsOf (definitions : List (String × ASTNode)) : List StringView :=
  definitions.flatMap fun d => (sizeFunction 0 d.2).calls

/-- A complete function of which nothing is given up exactly where all can be resolved. -/
def Accepted (func : ASTNode) : Prop :=
  func.CompleteFunction ∧ (ValuedFunction 0 func ↔ resolvesFunction func = true)

section

variable {fresh : Nat → IRFunction} {buffers : Nat → Ptr} {definitions : List (String × ASTNode)}
  {i : Nat} {errors : ErrorContext}

/-- A complete function is generated under its own name. -/
theorem irGen_functionName {fresh : IRFunction} {func : ASTNode} {filename : Option String}
    {g : GenState} (hcomplete : func.CompleteFunction)
    (h : irGen fresh func errors filename = .ok (true, g)) : g.f.name = functionName func := by
  rw [irGen_name h]
  cases func with
  | function => rfl
  | _ => exact absurd hcomplete id

/-- Functions are generated, printed and fit into the label tables exactly where each of them
compiles. -/
theorem generateAll_iff (hslots : ∀ i, (fresh i).stackCount = 0)
    (haccepted : ∀ d ∈ definitions, Accepted d.2) :
    ((∃ program, generateAll fresh definitions i errors = .ok (program, errors, true)) ∧
        ∀ job ∈ jobsOf fresh buffers definitions i errors,
          PrintableName job.f.name ∧ job.f.labelCount < maxLabels) ↔
      ∀ d ∈ definitions, Compiles d.2 := by
  induction definitions generalizing i with
  | nil =>
    exact iff_of_true ⟨⟨[], rfl⟩, fun _ hjob => absurd hjob List.not_mem_nil⟩
      (fun _ hd => absurd hd List.not_mem_nil)
  | cons d definitions ih =>
    obtain ⟨filename, func⟩ := d
    obtain ⟨hd, hrest⟩ := List.forall_mem_cons.mp haccepted
    obtain ⟨hcomplete, hresolves⟩ := hd
    have ih := @ih (i + 1) hrest
    rw [List.forall_mem_cons, ← ih]
    have hsucceeds := @irGen_succeeds_iff (fresh i) func errors (some filename) hcomplete
    rw [hslots i, hresolves] at hsucceeds
    constructor
    · rintro ⟨⟨program, hprogram⟩, hjobs⟩
      obtain ⟨g, program', hrun, hsame, hprogram', -⟩ := generateAll_cons hprogram
      obtain ⟨hresolved, hroom⟩ := hsucceeds.mp ⟨g, hrun, hsame⟩
      obtain ⟨-, -, hlabel, -⟩ := irGen_takes hcomplete hrun hsame
      unfold jobsOf at hjobs
      simp only [hrun] at hjobs
      rw [hsame, List.forall_mem_cons, irGen_functionName hcomplete hrun] at hjobs
      obtain ⟨⟨hname, hlabels⟩, hrestJobs⟩ := hjobs
      rw [hslots i] at hlabel
      exact ⟨⟨hresolved, hroom, hname, hlabel ▸ hlabels⟩, ⟨program', hprogram'⟩, hrestJobs⟩
    · rintro ⟨hfunc, ⟨program', hprogram'⟩, hrestJobs⟩
      obtain ⟨g, hrun, hsame⟩ := hsucceeds.mpr ⟨hfunc.resolves, hfunc.room⟩
      obtain ⟨-, -, hlabel, -⟩ := irGen_takes hcomplete hrun hsame
      rw [hslots i] at hlabel
      refine ⟨⟨⟨functionName func, g.f.instructions⟩ :: program', ?_⟩, ?_⟩
      · show (irGen (fresh i) func errors (some filename) >>= _) = _
        rw [hrun]
        show (generateAll fresh definitions (i + 1) g.f.errors >>= _) = _
        rw [hsame, hprogram']
        rfl
      · unfold jobsOf
        simp only [hrun]
        rw [hsame, List.forall_mem_cons, irGen_functionName hcomplete hrun]
        exact ⟨⟨hfunc.name, hlabel ▸ hfunc.labels⟩, hrestJobs⟩

/-- The compiled functions have the names of the definitions and call what these call. -/
theorem jobsOf_names {program : List Generated} (hslots : ∀ i, (fresh i).stackCount = 0)
    (hcomplete : ∀ d ∈ definitions, d.2.CompleteFunction)
    (h : generateAll fresh definitions i errors = .ok (program, errors, true)) :
    (jobsOf fresh buffers definitions i errors).map (·.name) =
        definitions.map (fun d => functionName d.2) ∧
      calledNames (jobsOf fresh buffers definitions i errors) = callsOf definitions := by
  induction definitions generalizing i program with
  | nil => exact ⟨rfl, rfl⟩
  | cons d definitions ih =>
    obtain ⟨filename, func⟩ := d
    obtain ⟨g, program', hrun, hsame, hrest, -⟩ := generateAll_cons h
    obtain ⟨hd, htail⟩ := List.forall_mem_cons.mp hcomplete
    obtain ⟨hnames, hcalls⟩ := ih htail hrest
    obtain ⟨-, -, -, hcall⟩ := irGen_takes hd hrun hsame
    rw [hslots i] at hcall
    unfold jobsOf
    simp only [hrun]
    rw [hsame]
    refine ⟨?_, ?_⟩
    · rw [List.map_cons, hnames]
      rfl
    · show callNames g.f.instructions ++ calledNames _ = _
      rw [hcall, hcalls]
      rfl

end

/-! ## Programs -/

/-- What stands in the second of two related lists is related to something in the first. -/
theorem exists_related {α β : Type} {R : α → β → Prop} {l : List α} {l' : List β}
    (h : List.Forall₂ R l l') {b : β} (hb : b ∈ l') : ∃ a ∈ l, R a b := by
  induction h with
  | nil => cases hb
  | @cons a b' l l' hab _ ih =>
    rcases List.mem_cons.mp hb with rfl | hb
    · exact ⟨a, List.mem_cons_self, hab⟩
    · obtain ⟨a', ha', hab'⟩ := ih hb
      exact ⟨a', List.mem_cons_of_mem a ha', hab'⟩

/-- The functions of a program that is parsed and accepted have derivations. -/
theorem typed_definitions {ctx₀ parsed ctx : CompilationContext}
    (hparse : compileParseAll ctx₀ = .ok (parsed, true))
    (hanalyze : compileAnalyzeAll parsed = .ok (ctx, true)) :
    ∀ d ∈ ctx.definitions, ∃ Γ func uses,
      Semantic.TypesDeclaration Γ func d.2 uses ∧ Parser.BareDeclaration func := by
  obtain ⟨global, -, hunits⟩ := compileAnalyzeAll_types hparse hanalyze
  intro d hd
  obtain ⟨unit', hunit', hd'⟩ := List.mem_flatMap.mp hd
  split at hd'
  · obtain ⟨func, hfunc, rfl⟩ := List.mem_map.mp hd'
    have hmem := (List.mem_filter.mp hfunc).1
    obtain ⟨unit, hunit, info, declarations, declarations', visible, hast, hast', hdeclarations⟩ :=
      exists_related hunits hunit'
    have hmem' : func ∈ declarations' := by
      rwa [CompilationUnit.declarations, hast'] at hmem
    obtain ⟨node, hnode, uses, htypes⟩ := exists_related hdeclarations hmem'
    have hbare := (parseFiles_parsed hparse unit hunit).2.2
    rw [hast] at hbare
    exact ⟨_, node, uses, htypes, hbare node hnode⟩
  · cases hd'

/-- The functions of an accepted program. -/
theorem AcceptedProgram.definitions {ctx₀ parsed ctx : CompilationContext}
    (h : AcceptedProgram ctx₀ parsed ctx) : ∀ d ∈ ctx.definitions, Accepted d.2 := by
  intro d hd
  obtain ⟨Γ, func, uses, htypes, -⟩ := typed_definitions h.parse h.analyze d hd
  exact ⟨h.complete d hd, valuedFunction_iff htypes (h.complete d hd)⟩

section

variable {fresh : Nat → IRFunction} {buffers : Nat → Ptr}
  {ctx₀ parsed ctx : CompilationContext}

/-- What an accepted program needs to be compiled and linked, and to have something to run. -/
structure CanRun (definitions : List (String × ASTNode)) : Prop where
  compiles : ∀ d ∈ definitions, Compiles d.2
  registry : definitions.length ≤ maxFunctionCount
  /-- There is a function of every name that is called, as far as calls are recorded. -/
  calls : ∀ name ∈ (callsOf definitions).take maxCallSites,
    ∃ d ∈ definitions, functionName d.2 = name
  main : ∃ d ∈ definitions, functionName d.2 = svOf "main"

instance (definitions : List (String × ASTNode)) : Decidable (CanRun definitions) :=
  decidable_of_iff ((∀ d ∈ definitions, Compiles d.2) ∧ definitions.length ≤ maxFunctionCount ∧
      (∀ name ∈ (callsOf definitions).take maxCallSites,
        ∃ d ∈ definitions, functionName d.2 = name) ∧
      ∃ d ∈ definitions, functionName d.2 = svOf "main")
    ⟨fun h => ⟨h.1, h.2.1, h.2.2.1, h.2.2.2⟩, fun h => ⟨h.compiles, h.registry, h.calls, h.main⟩⟩

/-- An accepted program is compiled without a report exactly where each of its functions
compiles and there are not too many of them. -/
theorem jitCompilePass_iff (hslots : ∀ i, (fresh i).stackCount = 0) (hbuffers : ∀ i, buffers i ≠ 0)
    (haccepted : ∀ d ∈ ctx.definitions, Accepted d.2) (mem : Mem) :
    (∃ s, jitCompilePass fresh buffers ctx.definitions 0 ⟨jitCtxInit, mem⟩ ctx.errors =
      some (s, ctx.errors, true)) ↔
      (∀ d ∈ ctx.definitions, Compiles d.2) ∧ ctx.definitions.length ≤ maxFunctionCount := by
  rw [jitCompilePass_succeeds_iff mem hbuffers, ← and_assoc, generateAll_iff hslots haccepted]

/-- A function of a name is in the registry where there is a definition of the name. -/
theorem mainCode_isSome_iff {jobs : List Job} {registry : List CompiledFunction}
    (hregistry : registry = jobs.map Job.entry) :
    (mainCode registry).isSome = true ↔ ∃ job ∈ jobs, job.name = svOf "main" := by
  rw [mainCode, Option.isSome_map, hregistry, List.find?_isSome]
  constructor
  · rintro ⟨fn, hfn, hname⟩
    obtain ⟨job, hjob, rfl⟩ := List.mem_map.mp hfn
    exact ⟨job, hjob, (svEq_iff _ _).mp hname⟩
  · rintro ⟨job, hjob, hname⟩
    exact ⟨job.entry, List.mem_map_of_mem hjob, (svEq_iff _ _).mpr hname⟩

/-- Behind a successful pass, linking succeeds where the trees define the functions they call,
and there is a `main` where they define one. -/
theorem links_iff (hprogram : AcceptedProgram ctx₀ parsed ctx)
    (harenas : ArenasServe fresh (builtJobs fresh buffers ctx)) {mem : Mem} {s : JITState}
    (hpass : jitCompilePass fresh buffers ctx.definitions 0 ⟨jitCtxInit, mem⟩ ctx.errors =
      some (s, ctx.errors, true)) :
    ((jitLinkAll s ctx.errors).1 = true ↔ ∀ name ∈ (callsOf ctx.definitions).take maxCallSites,
      ∃ d ∈ ctx.definitions, functionName d.2 = name) ∧
    ((mainCode s.ctx.registry).isSome = true ↔
      ∃ d ∈ ctx.definitions, functionName d.2 = svOf "main") := by
  have hcomplete := hprogram.complete
  obtain ⟨hcompiled, hgenerated, -⟩ := jitCompilePass_jobs hpass
  have hrunnable := @jobsOf_runnable fresh buffers ctx.definitions 0 ctx.errors _ harenas.slots
    hcomplete hgenerated
  have hproper : ∀ job ∈ builtJobs fresh buffers ctx, job.Proper := fun job hjob =>
    ⟨(hrunnable job hjob).2, harenas.buffers.buffer job hjob, harenas.buffers.aligned job hjob⟩
  obtain ⟨hnames, hcalls⟩ := @jobsOf_names fresh buffers ctx.definitions 0 ctx.errors _
    harenas.slots hcomplete hgenerated
  have hdefined : ∀ name, (∃ job ∈ builtJobs fresh buffers ctx, job.name = name) ↔
      ∃ d ∈ ctx.definitions, functionName d.2 = name := by
    intro name
    rw [← List.mem_map, ← List.mem_map (f := fun d : String × ASTNode => functionName d.2),
      hnames]
  have hregistry := (compileJobs_compiled hproper harenas.buffers.apart hcompiled).registry
  refine ⟨?_, (mainCode_isSome_iff hregistry).trans (hdefined _)⟩
  rw [jitLinkAll_succeeds_iff hproper harenas.buffers.apart hcompiled, hcalls]
  exact forall₂_congr fun name _ => hdefined name

/-- The compiler gets from the sources of an accepted program to running its `main` exactly
where the trees show that it can. -/
theorem runs_iff (hprogram : AcceptedProgram ctx₀ parsed ctx) (hbuffers : ∀ i, buffers i ≠ 0)
    (harenas : ArenasServe fresh (builtJobs fresh buffers ctx)) :
    (∃ s, Built fresh buffers ctx₀ ctx s ∧ (mainCode s.ctx.registry).isSome = true) ↔
      CanRun ctx.definitions := by
  have hpasses := jitCompilePass_iff harenas.slots hbuffers hprogram.definitions
  constructor
  · rintro ⟨s, hbuilt, hmain⟩
    obtain ⟨mem, hpass⟩ := hbuilt.compiled
    obtain ⟨hlink, hentry⟩ := links_iff hprogram harenas hpass
    obtain ⟨hcompiles, hroom⟩ := (hpasses mem).mp ⟨s, hpass⟩
    exact ⟨hcompiles, hroom, hlink.mp hbuilt.linked, hentry.mp hmain⟩
  · intro h
    obtain ⟨s, hpass⟩ := (hpasses fun _ => 0).mpr ⟨h.compiles, h.registry⟩
    obtain ⟨hlink, hentry⟩ := links_iff hprogram harenas hpass
    exact ⟨s, ⟨⟨parsed, hprogram⟩, ⟨_, hpass⟩, hlink.mpr h.calls⟩,
      hentry.mpr h.main⟩

end

theorem runs_iff_twoFunctions : ∃ ctx : CompilationContext,
    isTwoFunctions ctx.definitions = true ∧
      ((∃ s, Built (fun _ => .zeroed) spreadBuffers (oneFile twoFunctions) ctx s ∧
        (mainCode s.ctx.registry).isSome = true) ↔ CanRun ctx.definitions) := by
  have hbuilds : builds twoFunctions = true := by decide +kernel
  obtain ⟨ctx, s, hbuilt, harenas, -, htwo⟩ := exists_built hbuilds
  obtain ⟨parsed, haccepted⟩ := hbuilt.accepted
  exact ⟨ctx, htwo, runs_iff haccepted spreadBuffers_ne harenas⟩

end TinyCompile.Compile
