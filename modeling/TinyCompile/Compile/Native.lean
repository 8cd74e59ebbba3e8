import TinyCompile.Compile.Settles
import TinyCompile.Jit.Print
import TinyCompile.Jit.Program

set_option autoImplicit false

/-!
# Compile: from source files to machine code that runs

`jit_compile_pass` of `srcs/jit/jit.c` and the last phases of `srcs/main.c`.  The functions of
a program call each other through the addresses that `jit_link_all` writes, so the code of a
function is right only together with that of all others.
-/

namespace TinyCompile.Compile

open TinyCompile.Machine TinyCompile.X86 TinyCompile.Source TinyCompile.Logic TinyCompile.Ir
  TinyCompile.Jit

/-! ## Compiling a program -/

/-- `jit_compile_pass`: what is registered and reported, and whether it succeeds; `none` where
the process ends in it or does not come out of `ir_print`.  For function number `i` the data
arena returns `fresh i` and the executable arena `buffers i`. -/
def jitCompilePass (fresh : Nat → IRFunction) (buffers : Nat → Ptr) :
    List (String × ASTNode) → Nat → JITState → ErrorContext →
      Option (JITState × ErrorContext × Bool)
  | [], _, s, errors => some (s, errors, true)
  | (filename, func) :: rest, i, s, errors =>
      let line := (func.info?.map (·.line)).getD 0
      let name := functionName func
      match irGen (fresh i) func errors (some filename) with
      | .error _ => none
      | .ok (false, g) =>
          some (s, errorAdd g.f.errors .system .fatal (some filename) line 0
            ("IR generation failed for function '" ++ svText name ++ "'"), false)
      | .ok (true, g) =>
          -- the call of `ir_print`
          if irPrintEnds g.f then
            match jitCompileFunction g.f name func.params.length (buffers i) s with
            | some (.returned jit, s) =>
                if jit.code = 0 then
                  some (s, errorAdd g.f.errors .system .fatal (some filename) line 0
                    ("JIT compilation failed for function '" ++ svText name ++ "'"), false)
                else jitCompilePass fresh buffers rest (i + 1) s g.f.errors
            | _ => none
          else none

/-- `sv_eq_cstr`. -/
def svEqCstr (sv : StringView) (str : String) : Bool := svEq sv (svOf str)

/-- The code `main` of `srcs/main.c` calls. -/
def mainCode (registry : List CompiledFunction) : Option Ptr :=
  (registry.find? fun fn => svEqCstr fn.name "main").map (·.codeAddr)

/-- The functions that are compiled, as far as they are generated. -/
def jobsOf (fresh : Nat → IRFunction) (buffers : Nat → Ptr) :
    List (String × ASTNode) → Nat → ErrorContext → List Job
  | [], _, _ => []
  | (filename, func) :: rest, i, errors =>
      match irGen (fresh i) func errors (some filename) with
      | .ok (true, g) =>
          ⟨g.f, functionName func, func.params.length, buffers i⟩ ::
            jobsOf fresh buffers rest (i + 1) g.f.errors
      | _ => []

/-- A compiled function by its instructions. -/
def generatedOf (job : Job) : Generated := ⟨job.name, job.f.instructions⟩

/-- What the executable arena promises: buffers that are aligned, not null, long enough and
apart from each other. -/
structure BuffersServe (jobs : List Job) : Prop where
  buffer : ∀ job ∈ jobs, Buffer job.code job.size
  aligned : ∀ job ∈ jobs, job.code.toNat % stackAlignment = 0
  apart : BuffersApart jobs

section

variable {fresh : Nat → IRFunction} {buffers : Nat → Ptr} {definitions : List (String × ASTNode)}
  {i : Nat} {s s' : JITState} {errors errors' : ErrorContext}

/-- A successful pass generates, prints and compiles its first function. -/
theorem jitCompilePass_cons {filename : String} {func : ASTNode}
    (h : jitCompilePass fresh buffers ((filename, func) :: definitions) i s errors =
      some (s', errors', true)) :
    ∃ g jit s₁, irGen (fresh i) func errors (some filename) = .ok (true, g) ∧
      PrintableName g.f.name ∧
      jitCompileFunction g.f (functionName func) func.params.length (buffers i) s =
        some (.returned jit, s₁) ∧
      jit.code ≠ 0 ∧
      jitCompilePass fresh buffers definitions (i + 1) s₁ g.f.errors =
        some (s', errors', true) := by
  unfold jitCompilePass at h
  split at h
  · cases h
  · cases h
  · rename_i g hgen
    obtain ⟨hends, h⟩ := Option.ite_none_right_eq_some.mp h
    split at h
    · rename_i jit s₁ hcompiled
      split at h
      · cases h
      · rename_i hcode
        exact ⟨g, jit, s₁, hgen, (irPrintEnds_iff g.f).mp hends, hcompiled, hcode, h⟩
    · cases h

/-- A successful pass generates all functions, and prints and compiles what was generated. -/
theorem jitCompilePass_jobs
    (h : jitCompilePass fresh buffers definitions i s errors = some (s', errors', true)) :
    compileJobs (jobsOf fresh buffers definitions i errors) s = some s' ∧
      generateAll fresh definitions i errors =
        .ok ((jobsOf fresh buffers definitions i errors).map generatedOf, errors', true) ∧
      ∀ job ∈ jobsOf fresh buffers definitions i errors, PrintableName job.f.name := by
  induction definitions generalizing i s errors with
  | nil =>
    cases h
    exact ⟨rfl, rfl, fun job hjob => absurd hjob List.not_mem_nil⟩
  | cons d definitions ih =>
    obtain ⟨filename, func⟩ := d
    obtain ⟨g, jit, s₁, hgen, hprints, hcompiled, hcode, hrest⟩ := jitCompilePass_cons h
    obtain ⟨hjobs, hprogram, hnames⟩ := ih hrest
    unfold jobsOf generateAll
    simp only [hgen]
    refine ⟨?_, ?_, List.forall_mem_cons.mpr ⟨hprints, hnames⟩⟩
    · unfold compileJobs
      simp only [hcompiled, if_neg hcode]
      exact hjobs
    · show (generateAll fresh definitions (i + 1) g.f.errors >>= _) = _
      rw [hprogram]
      rfl

/-- The functions of a program that is generated without an error are well formed, and their
frames are small enough. -/
theorem jobsOf_runnable {program : List Generated} (hstack : ∀ i, (fresh i).stackCount = 0)
    (hcomplete : ∀ d ∈ definitions, d.2.CompleteFunction)
    (h : generateAll fresh definitions i errors = .ok (program, errors, true)) :
    ∀ job ∈ jobsOf fresh buffers definitions i errors,
      Runnable job.paramCount job.f ∧ ∃ fresh root errors filename g,
        irGen fresh root errors filename = .ok (true, g) ∧ job.f = g.f := by
  induction definitions generalizing i program with
  | nil => exact fun job hjob => absurd hjob List.not_mem_nil
  | cons d definitions ih =>
    obtain ⟨g, program', hrun, hsame, hrest, -⟩ := generateAll_cons h
    have hfirst := irGen_stackCount (hcomplete d List.mem_cons_self) hrun hsame
    rw [hstack i, Nat.zero_add] at hfirst
    intro job hjob
    unfold jobsOf at hjob
    simp only [hrun] at hjob
    rw [hsame] at hjob
    rcases List.mem_cons.mp hjob with rfl | hjob
    · exact ⟨.of_irGen hrun hsame hfirst, _, _, _, _, _, hrun, rfl⟩
    · exact ih (fun d hd => hcomplete d (List.mem_cons_of_mem _ hd)) hrest job hjob

/-- Functions are compiled while there is room in the registry, if they have few labels. -/
theorem compileJobs_room {jobs : List Job}
    (hlimit : ∀ job ∈ jobs, job.f.instructions.length < maxIrInstructionsPerFunction)
    (hroom : s.ctx.registry.length ≤ maxFunctionCount) (h : compileJobs jobs s = some s') :
    (∀ job ∈ jobs, job.f.labelCount < maxLabels) ∧
      s.ctx.registry.length + jobs.length ≤ maxFunctionCount := by
  induction jobs generalizing s with
  | nil => exact ⟨fun job hjob => absurd hjob List.not_mem_nil, hroom⟩
  | cons job jobs ih =>
    rw [List.forall_mem_cons] at hlimit
    unfold compileJobs at h
    split at h
    · rename_i jit s₁ hcompiled
      split at h
      · cases h
      · rename_i hcode
        obtain ⟨hcompilable, -, hs₁⟩ := compiled_registered hcompiled hcode hlimit.1
        have hlength : s₁.ctx.registry.length = s.ctx.registry.length + 1 := by
          rw [hs₁]
          exact List.length_append
        have hfree : s.ctx.registry.length < maxFunctionCount := by
          rw [jitCompileFunction_returns hcompilable hlimit.1] at hcompiled
          obtain ⟨heq, -⟩ := Prod.mk.inj (Option.some.inj hcompiled)
          obtain rfl := Outcome.returned.inj heq
          by_contra hfull
          apply hcode
          unfold registeredState
          rw [if_pos (Nat.le_of_not_lt hfull)]
        obtain ⟨hlabels, hrest⟩ := ih hlimit.2 (by omega) h
        refine ⟨List.forall_mem_cons.mpr ⟨hcompilable.labels, hlabels⟩, ?_⟩
        rw [List.length_cons]
        omega
    · cases h

theorem jobsOf_limit (fresh : Nat → IRFunction) (buffers : Nat → Ptr)
    (definitions : List (String × ASTNode)) (i : Nat) (errors : ErrorContext) :
    ∀ job ∈ jobsOf fresh buffers definitions i errors,
      job.f.instructions.length < maxIrInstructionsPerFunction := by
  induction definitions generalizing i errors with
  | nil => exact fun job hjob => absurd hjob List.not_mem_nil
  | cons d definitions ih =>
    unfold jobsOf
    split
    · rename_i g hrun
      exact List.forall_mem_cons.mpr ⟨(irGen_labels hrun).2, ih _ _⟩
    · exact fun job hjob => absurd hjob List.not_mem_nil

/-- The pass succeeds on functions that are generated without an error, are printable and have
few labels, if there is room in the registry. -/
theorem jitCompilePass_succeeds {program : List Generated}
    (h : generateAll fresh definitions i errors = .ok (program, errors, true))
    (hjobs : ∀ job ∈ jobsOf fresh buffers definitions i errors,
      PrintableName job.f.name ∧ job.f.labelCount < maxLabels)
    (hbuffers : ∀ i, buffers i ≠ 0)
    (hroom : s.ctx.registry.length + definitions.length ≤ maxFunctionCount) :
    ∃ s', jitCompilePass fresh buffers definitions i s errors = some (s', errors, true) := by
  induction definitions generalizing i s program with
  | nil => exact ⟨s, rfl⟩
  | cons d definitions ih =>
    obtain ⟨g, program', hrun, hsame, hrest, -⟩ := generateAll_cons h
    unfold jobsOf at hjobs
    simp only [hrun] at hjobs
    rw [hsame, List.forall_mem_cons] at hjobs
    obtain ⟨⟨hprints, hlabels⟩, hrestJobs⟩ := hjobs
    rw [List.length_cons] at hroom
    obtain ⟨hf, -, -, -⟩ := irGen_wellFormed hrun hsame
    have hfree : s.ctx.registry.length < maxFunctionCount := by omega
    obtain ⟨s₁, hcompiled⟩ := jitCompileFunction_registers
      (wellFormed_compilable hf hlabels) hf.limit (functionName d.2) (buffers i) hfree
    obtain ⟨-, -, hs₁⟩ := compiled_registered hcompiled (hbuffers i) hf.limit
    have hlength : s₁.ctx.registry.length = s.ctx.registry.length + 1 := by
      rw [hs₁]
      exact List.length_append
    obtain ⟨s', hpass⟩ := ih (s := s₁) hrest hrestJobs (by omega)
    refine ⟨s', ?_⟩
    unfold jitCompilePass
    simp only [hrun, if_pos ((irPrintEnds_iff g.f).mpr hprints), hcompiled, if_neg (hbuffers i),
      hsame]
    exact hpass

theorem jobsOf_length {program : List Generated}
    (h : generateAll fresh definitions i errors = .ok (program, errors, true)) :
    (jobsOf fresh buffers definitions i errors).length = definitions.length := by
  induction definitions generalizing i program with
  | nil => rfl
  | cons d definitions ih =>
    obtain ⟨g, program', hrun, hsame, hrest, -⟩ := generateAll_cons h
    unfold jobsOf
    simp only [hrun]
    rw [hsame, List.length_cons, List.length_cons, ih hrest]

/-- `jit_compile_pass` succeeds without a report exactly where all functions are generated
without a report, each has a name that `ir_print` comes to the end of and fewer labels than the
label tables, and all have room in the registry. -/
theorem jitCompilePass_succeeds_iff (mem : Mem) (hbuffers : ∀ i, buffers i ≠ 0) :
    (∃ s', jitCompilePass fresh buffers definitions 0 ⟨jitCtxInit, mem⟩ errors =
      some (s', errors, true)) ↔
      (∃ program, generateAll fresh definitions 0 errors = .ok (program, errors, true)) ∧
        (∀ job ∈ jobsOf fresh buffers definitions 0 errors,
          PrintableName job.f.name ∧ job.f.labelCount < maxLabels) ∧
          definitions.length ≤ maxFunctionCount := by
  have hempty : (jitCtxInit.registry).length = 0 := rfl
  constructor
  · rintro ⟨s', hpass⟩
    obtain ⟨hcompiled, hprogram, hnames⟩ := jitCompilePass_jobs hpass
    obtain ⟨hlabels, hroom⟩ := compileJobs_room (jobsOf_limit fresh buffers definitions 0 errors)
      (Nat.zero_le _) hcompiled
    rw [jobsOf_length hprogram, hempty, Nat.zero_add] at hroom
    exact ⟨⟨_, hprogram⟩, fun job hjob => ⟨hnames job hjob, hlabels job hjob⟩, hroom⟩
  · rintro ⟨⟨program, hprogram⟩, hjobs, hroom⟩
    refine jitCompilePass_succeeds hprogram hjobs hbuffers ?_
    rw [hempty, Nat.zero_add]
    exact hroom

end

/-! ## The code of a whole program -/

section

variable {jobs : List Job} {s : JITState} {mem : Mem} {errors : ErrorContext}

/-- The first function of a name is the one that calls of the name are linked to. -/
theorem findTarget_entry {name : StringView} {job : Job}
    (h : jobs.find? (fun job => job.name == name) = some job) :
    findTarget (jobs.map Job.entry) name = job.code := by
  have hfind : (jobs.map Job.entry).find? (fun fn => svEq name fn.name) = some job.entry := by
    rw [List.find?_map]
    have hsame : ((fun fn : CompiledFunction => svEq name fn.name) ∘ Job.entry) =
        fun job : Job => job.name == name := by
      funext other
      show svEq name other.name = (other.name == name)
      rw [Bool.eq_iff_iff, svEq_iff, beq_iff_eq, eq_comm]
    rw [hsame, h]
    rfl
  unfold findTarget
  rw [hfind]
  rfl

theorem codeOf_jobs {name : StringView} {code : List IRInstruction}
    (h : codeOf (jobs.map generatedOf) name = some code) :
    ∃ job ∈ jobs, jobs.find? (fun job => job.name == name) = some job ∧
      code = job.f.instructions := by
  unfold codeOf at h
  rw [List.find?_map, Option.map_map] at h
  obtain ⟨job, hjob, rfl⟩ := Option.map_eq_some_iff.mp h
  exact ⟨job, List.mem_of_find?_eq_some hjob, hjob, rfl⟩

/-- All functions of a linked program. -/
structure LinkedProgram (code : Mem) (registry : List CompiledFunction) (jobs : List Job) :
    Prop where
  entries : registry = jobs.map Job.entry
  linked : ∀ job ∈ jobs,
    Linked code job.code (findTarget registry) jitCtxInit job.paramCount job.f

/-- Linking makes a program of the functions that were compiled. -/
theorem linkedProgram (hproper : ∀ job ∈ jobs, job.Proper) (hapart : BuffersApart jobs)
    (hrunnable : ∀ job ∈ jobs, Runnable job.paramCount job.f)
    (hcompiled : compileJobs jobs ⟨jitCtxInit, mem⟩ = some s)
    (hsites : (calledNames jobs).length ≤ maxCallSites)
    (hlinked : (jitLinkAll s errors).1 = true) :
    LinkedProgram (jitLinkAll s errors).2.1 s.ctx.registry jobs where
  entries := (compileJobs_compiled hproper hapart hcompiled).registry
  linked := by
    intro job hjob
    obtain ⟨hcompilable, -⟩ := compileJobs_emitted hproper hapart hcompiled job hjob
    have hlimit := (hrunnable job hjob).wellFormed.limit
    exact ⟨hrunnable job hjob, functionSize_le hcompilable hlimit jitCtxInit,
      jitLinkAll_placed hproper hapart hcompiled hsites hlinked job hjob⟩

/-- A name is undefined unless some function has it. -/
theorem not_undefined_iff {name : StringView} :
    ¬ Undefined jobs name ↔ ∃ job ∈ jobs, job.name = name := by
  unfold Undefined
  simp only [not_forall, exists_prop, Bool.not_eq_false, svEq_iff]
  exact exists_congr fun _ => and_congr_right fun _ => eq_comm

/-- Linking succeeds exactly where there is a function of every name that is called, as far as
calls are recorded. -/
theorem jitLinkAll_succeeds_iff (hproper : ∀ job ∈ jobs, job.Proper) (hapart : BuffersApart jobs)
    (hcompiled : compileJobs jobs ⟨jitCtxInit, mem⟩ = some s) :
    (jitLinkAll s errors).1 = true ↔
      ∀ name ∈ (calledNames jobs).take maxCallSites, ∃ job ∈ jobs, job.name = name := by
  have h := compileJobs_compiled hproper hapart hcompiled
  have hregistry : s.ctx.registry = jobs.map Job.entry := h.registry
  have hsites : s.ctx.callSites = (jobs.flatMap Job.sites).take maxCallSites := h.sites
  have hnames : (calledNames jobs).take maxCallSites = s.ctx.callSites.map (·.targetName) := by
    rw [hsites, calledNames_eq, List.map_take]
  unfold jitLinkAll
  rw [linkSites_success, Bool.true_and, List.all_eq_true, hregistry, hnames, List.forall_mem_map]
  exact forall₂_congr fun site _ => by
    rw [bne_iff_ne, ne_eq, findTarget_eq_zero hproper, not_undefined_iff]

/-- Every call that settles is served by the code of its function.  Every level of calls takes
at most so much of the stack. -/
theorem LinkedProgram.serves {code : Mem} {registry : List CompiledFunction} {room n : Nat}
    {call : Call} {v : Word} (h : LinkedProgram code registry jobs)
    (hcall : Settles (jobs.map generatedOf) n call v) (hroom : room + n * 2 ^ 33 < 2 ^ 62) :
    Serves code room (findTarget registry call.name) call.args v := by
  induction hcall generalizing room with
  | @intro n call instructions oracle v hcode hcalls hruns ih =>
    obtain ⟨job, hjob, hfind, rfl⟩ := codeOf_jobs hcode
    have hanswers : Answers code (room + 2 ^ 33) (findTarget registry) oracle :=
      fun name args w hw => ih ⟨name, args⟩ w hw (by omega)
    have htarget : findTarget registry call.name = job.code := by
      rw [h.entries]
      exact findTarget_entry hfind
    rw [htarget]
    exact (h.linked job hjob).serves hanswers (Nat.le_refl _) (by omega) hruns

end

/-! ## Programs that are built -/

/-- What the phases of `main` come to for a program without errors: it is parsed and accepted,
and its functions are compiled and linked. -/
structure Built (fresh : Nat → IRFunction) (buffers : Nat → Ptr) (ctx₀ ctx : CompilationContext)
    (s : JITState) : Prop where
  accepted : ∃ parsed, AcceptedProgram ctx₀ parsed ctx
  compiled : ∃ mem, jitCompilePass fresh buffers ctx.definitions 0 ⟨jitCtxInit, mem⟩ ctx.errors =
    some (s, ctx.errors, true)
  linked : (jitLinkAll s ctx.errors).1 = true

/-- What the arenas promise: functions that start at slot number zero, and buffers. -/
structure ArenasServe (fresh : Nat → IRFunction) (jobs : List Job) : Prop where
  slots : ∀ i, (fresh i).stackCount = 0
  buffers : BuffersServe jobs

section

variable {fresh : Nat → IRFunction} {buffers : Nat → Ptr} {ctx₀ ctx : CompilationContext}
  {s : JITState}

theorem Built.complete (h : Built fresh buffers ctx₀ ctx s) :
    ∀ d ∈ ctx.definitions, d.2.CompleteFunction := by
  obtain ⟨parsed, haccepted⟩ := h.accepted
  exact haccepted.complete

/-- The functions of a program that is built. -/
abbrev builtJobs (fresh : Nat → IRFunction) (buffers : Nat → Ptr) (ctx : CompilationContext) :
    List Job := jobsOf fresh buffers ctx.definitions 0 ctx.errors

/-- A program that is built is linked. -/
theorem Built.program (h : Built fresh buffers ctx₀ ctx s)
    (harenas : ArenasServe fresh (builtJobs fresh buffers ctx))
    (hsites : (calledNames (builtJobs fresh buffers ctx)).length ≤ maxCallSites) :
    LinkedProgram (jitLinkAll s ctx.errors).2.1 s.ctx.registry (builtJobs fresh buffers ctx) ∧
      List.Forall₂ GeneratedTo ctx.definitions
        ((builtJobs fresh buffers ctx).map generatedOf) := by
  obtain ⟨mem, hpass⟩ := h.compiled
  obtain ⟨hcompiled, hprogram, -⟩ := jitCompilePass_jobs hpass
  have hrunnable := @jobsOf_runnable fresh buffers ctx.definitions 0 ctx.errors _ harenas.slots
    h.complete hprogram
  have hproper : ∀ job ∈ builtJobs fresh buffers ctx, job.Proper := fun job hjob =>
    ⟨(hrunnable job hjob).2, harenas.buffers.buffer job hjob, harenas.buffers.aligned job hjob⟩
  exact ⟨linkedProgram hproper harenas.buffers.apart (fun job hjob => (hrunnable job hjob).1)
    hcompiled hsites h.linked, generateAll_generated harenas.slots h.complete hprogram⟩

/-- A registered function is found by its name, as `main` finds its entry. -/
theorem mainCode_entry {jobs : List Job} {job : Job}
    (h : jobs.find? (fun job => job.name == svOf "main") = some job) :
    mainCode (jobs.map Job.entry) = some job.code := by
  unfold mainCode
  rw [List.find?_map]
  have hsame : ((fun fn : CompiledFunction => svEqCstr fn.name "main") ∘ Job.entry) =
      fun job : Job => job.name == svOf "main" := by
    funext other
    show svEq other.name (svOf "main") = (other.name == svOf "main")
    rw [Bool.eq_iff_iff, svEq_iff, beq_iff_eq]
  rw [hsame, h]
  rfl

/-- What `main` of `srcs/main.c` calls is the code of the first function named `main`. -/
theorem LinkedProgram.mainCode {code : Mem} {registry : List CompiledFunction} {jobs : List Job}
    {n : Nat} {call : Call} {v : Word} (h : LinkedProgram code registry jobs)
    (hcall : Settles (jobs.map generatedOf) n call v) (hname : call.name = svOf "main") :
    mainCode registry = some (findTarget registry call.name) := by
  cases hcall with
  | intro hcode hcalls hruns =>
    obtain ⟨job, -, hfind, -⟩ := codeOf_jobs hcode
    rw [h.entries, findTarget_entry hfind]
    rw [hname] at hfind
    exact mainCode_entry hfind

/-- What a call comes to in the trees of a program that is built, the machine code of its
function returns.  The code keeps the calling convention, and for `main` it is what `main` of
`srcs/main.c` calls. -/
theorem built_serves (h : Built fresh buffers ctx₀ ctx s)
    (harenas : ArenasServe fresh (builtJobs fresh buffers ctx))
    (hsites : (calledNames (builtJobs fresh buffers ctx)).length ≤ maxCallSites)
    {room n : Nat} {call : Call} {v : Word} (hcall : Evaluates ctx.definitions n call v)
    (hroom : room + n * 2 ^ 33 < 2 ^ 62) :
    Serves (jitLinkAll s ctx.errors).2.1 room (findTarget s.ctx.registry call.name) call.args v ∧
      (call.name = svOf "main" →
        mainCode s.ctx.registry = some (findTarget s.ctx.registry call.name)) := by
  obtain ⟨hprogram, hgenerated⟩ := h.program harenas hsites
  have hsettles := (settles_iff_evaluates hgenerated).mpr hcall
  exact ⟨hprogram.serves hsettles hroom, hprogram.mainCode hsettles⟩

end

/-! ## Samples -/

/-- Buffers far apart. -/
def spreadBuffers (i : Nat) : Ptr := BitVec.ofNat 64 ((i % 2 ^ 32 + 1) * 2 ^ 28)

theorem spreadBuffers_toNat {i : Nat} (hi : i < 2 ^ 32) :
    (spreadBuffers i).toNat = (i + 1) * 2 ^ 28 := by
  unfold spreadBuffers
  rw [BitVec.toNat_ofNat, Nat.mod_eq_of_lt hi]
  omega

theorem spreadBuffers_ne (i : Nat) : spreadBuffers i ≠ 0 := by
  unfold spreadBuffers
  generalize i % 2 ^ 32 = k, Nat.mod_lt i (show 0 < 2 ^ 32 by decide) = hk
  bv_omega

/-- A range that ends in front of another one. -/
theorem apart_of_le {a b : Ptr} {n k : Nat} (h : a.toNat + n < b.toNat)
    (hfits : b.toNat + k < 2 ^ 64) : Apart a n b k := by
  constructor <;> bv_omega

/-- Functions with few labels have room in them. -/
theorem spreadBuffers_serve {fresh : Nat → IRFunction} {definitions : List (String × ASTNode)}
    {i : Nat} {errors : ErrorContext} {program : List Generated}
    (h : generateAll fresh definitions i errors = .ok (program, errors, true))
    (hlabels : ∀ job ∈ jobsOf fresh spreadBuffers definitions i errors,
      job.f.labelCount < maxLabels)
    (hroom : i + definitions.length ≤ 2 ^ 32) :
    BuffersServe (jobsOf fresh spreadBuffers definitions i errors) ∧
      ∀ job ∈ jobsOf fresh spreadBuffers definitions i errors,
        (i + 1) * 2 ^ 28 ≤ job.code.toNat := by
  induction definitions generalizing i program with
  | nil => exact ⟨⟨by simp [jobsOf], by simp [jobsOf], .nil⟩, by simp [jobsOf]⟩
  | cons d definitions ih =>
    obtain ⟨g, program', hrun, hsame, hrest, -⟩ := generateAll_cons h
    obtain ⟨hf, -, -, -⟩ := irGen_wellFormed hrun hsame
    unfold jobsOf at hlabels ⊢
    simp only [hrun] at hlabels ⊢
    rw [hsame, List.forall_mem_cons] at hlabels
    rw [hsame]
    rw [List.length_cons] at hroom
    obtain ⟨hbuffers, habove⟩ := ih hrest hlabels.2 (by omega)
    have hsize := functionSize_le (wellFormed_compilable hf hlabels.1) hf.limit jitCtxInit
    have hcode := spreadBuffers_toNat (i := i) (by omega)
    generalize hjob : (⟨g.f, functionName d.2, d.2.params.length, spreadBuffers i⟩ : Job) = job
    have hjobSize : job.size < 2 ^ 28 := by
      rw [← hjob]
      exact hsize
    have hjobCode : job.code.toNat = (i + 1) * 2 ^ 28 := by
      rw [← hjob]
      exact hcode
    have hnonNull : job.code ≠ 0 := by
      rw [← hjob]
      exact spreadBuffers_ne i
    have haligned : job.code.toNat % stackAlignment = 0 := by
      show job.code.toNat % 16 = 0
      omega
    refine ⟨⟨List.forall_mem_cons.mpr ⟨⟨hnonNull, by omega⟩, hbuffers.buffer⟩,
      List.forall_mem_cons.mpr ⟨haligned, hbuffers.aligned⟩,
      List.pairwise_cons.mpr ⟨fun other hother => ?_, hbuffers.apart⟩⟩,
      List.forall_mem_cons.mpr ⟨by omega, fun other hother => ?_⟩⟩
    · have hother' := habove other hother
      exact apart_of_le (by omega) (hbuffers.buffer other hother).fits
    · exact Nat.le_trans (Nat.mul_le_mul_right _ (Nat.le_succ _)) (habove other hother)

theorem jitCompilePass_succeeds_iff_callLoop :
    (∃ s', jitCompilePass (fun _ => .zeroed) spreadBuffers [("a.c", callLoop)] 0
      ⟨jitCtxInit, fun _ => 0⟩ .init = some (s', .init, true)) ↔
      (∃ program, generateAll (fun _ => .zeroed) [("a.c", callLoop)] 0 .init =
        .ok (program, .init, true)) ∧
        (∀ job ∈ jobsOf (fun _ => .zeroed) spreadBuffers [("a.c", callLoop)] 0 .init,
          PrintableName job.f.name ∧ job.f.labelCount < maxLabels) ∧
          [("a.c", callLoop)].length ≤ maxFunctionCount :=
  jitCompilePass_succeeds_iff (fun _ => 0) spreadBuffers_ne

/-- What is generated of a file is printable, and has room in the tables and the buffers. -/
def hasPlaces (ctx : CompilationContext) : Bool :=
  let jobs := builtJobs (fun _ => .zeroed) spreadBuffers ctx
  jobs.all (fun job => decide (PrintableName job.f.name ∧ job.f.labelCount < maxLabels)) &&
  (calledNames jobs).all (fun name => jobs.any fun job => job.name == name) &&
  decide ((calledNames jobs).length ≤ maxCallSites) &&
  decide (ctx.definitions.length ≤ maxFunctionCount)

/-- What is built of a file. -/
theorem built_of_generated {text : String} {parsed ctx : CompilationContext}
    {program : List Generated} (hfrom : generatedFrom text = some (parsed, ctx, program))
    (hplaces : hasPlaces ctx = true) : ∃ s,
      Built (fun _ => .zeroed) spreadBuffers (oneFile text) ctx s ∧
      ArenasServe (fun _ => .zeroed) (builtJobs (fun _ => .zeroed) spreadBuffers ctx) ∧
      (calledNames (builtJobs (fun _ => .zeroed) spreadBuffers ctx)).length ≤ maxCallSites := by
  obtain ⟨htrees, hprogram⟩ := generatedFrom_eq_some hfrom
  have haccepted := treesOf_eq_some htrees
  simp only [hasPlaces, Bool.and_eq_true, decide_eq_true_eq, List.all_eq_true, List.any_eq_true,
    beq_iff_eq] at hplaces
  obtain ⟨⟨⟨hjobs, hdefined⟩, hsites⟩, hroom⟩ := hplaces
  have hmax : maxFunctionCount = 256 := rfl
  obtain ⟨hbuffers, -⟩ := spreadBuffers_serve hprogram (fun job hjob => (hjobs job hjob).2)
    (by omega)
  obtain ⟨s, hpass⟩ := jitCompilePass_succeeds (s := ⟨jitCtxInit, fun _ => 0⟩) hprogram hjobs
    spreadBuffers_ne (by show 0 + _ ≤ _; omega)
  have hproper : ∀ job ∈ builtJobs (fun _ => .zeroed) spreadBuffers ctx, job.Proper :=
    fun job hjob => ⟨(jobsOf_runnable (fun _ => rfl) haccepted.complete hprogram job hjob).2,
      hbuffers.buffer job hjob, hbuffers.aligned job hjob⟩
  have hlinked := (@jitLinkAll_succeeds_iff _ s _ ctx.errors hproper hbuffers.apart
    (jitCompilePass_jobs hpass).1).mpr fun name hname => hdefined name (List.mem_of_mem_take hname)
  exact ⟨s, ⟨⟨parsed, haccepted⟩, ⟨_, hpass⟩, hlinked⟩, ⟨fun _ => rfl, hbuffers⟩, hsites⟩

/-- A file is compiled and linked without an error. -/
def builds (text : String) : Bool :=
  (generatedFrom text).any fun r => hasPlaces r.2.1 && isTwoFunctions r.2.1.definitions

/-- What is built of a file that builds. -/
theorem exists_built {text : String} (h : builds text = true) : ∃ ctx s,
    Built (fun _ => .zeroed) spreadBuffers (oneFile text) ctx s ∧
      ArenasServe (fun _ => .zeroed) (builtJobs (fun _ => .zeroed) spreadBuffers ctx) ∧
      (calledNames (builtJobs (fun _ => .zeroed) spreadBuffers ctx)).length ≤ maxCallSites ∧
      isTwoFunctions ctx.definitions = true := by
  obtain ⟨⟨parsed, ctx, program⟩, hfrom, hchecks⟩ := (Option.any_eq_true _ _).mp h
  obtain ⟨hplaces, htwo⟩ := (Bool.and_eq_true _ _).mp hchecks
  obtain ⟨s, hbuilt, harenas, hsites⟩ := built_of_generated hfrom hplaces
  exact ⟨ctx, s, hbuilt, harenas, hsites, htwo⟩

theorem built_serves_twoFunctions : ∃ ctx s,
    Built (fun _ => .zeroed) spreadBuffers (oneFile twoFunctions) ctx s ∧
      Serves (jitLinkAll s ctx.errors).2.1 (2 ^ 40) (findTarget s.ctx.registry (svOf "main")) [] 2 ∧
      (svOf "main" = svOf "main" →
        mainCode s.ctx.registry = some (findTarget s.ctx.registry (svOf "main"))) := by
  have hbuilds : builds twoFunctions = true := by decide +kernel
  obtain ⟨ctx, s, hbuilt, harenas, hsites, htwo⟩ := exists_built hbuilds
  exact ⟨ctx, s, hbuilt,
    built_serves hbuilt harenas hsites (evaluates_twoFunctions htwo) (by decide)⟩

end TinyCompile.Compile
