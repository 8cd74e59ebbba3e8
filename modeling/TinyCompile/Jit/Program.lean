import TinyCompile.Ir.Frames
import TinyCompile.Jit.Link
import TinyCompile.Jit.Serve

set_option autoImplicit false

/-!
# Jit: linked programs

What `jit_compile_function` and `jit_link_all` leave of a sequence of functions is their
linked code: the bytes of every function, with the address of the function of that name in
every call.
-/

namespace TinyCompile.Jit

open TinyCompile.Machine TinyCompile.X86 TinyCompile.Source TinyCompile.Logic TinyCompile.Ir

/-! ## Bytes of a function -/

/-- The bytes of the items of a function are in its buffer. -/
def Job.Emitted (job : Job) (mem : Mem) : Prop :=
  ∀ o item, (o, item) ∈ layout 0 job.items →
    readBytes mem (at' job.code o) item.size = itemBytes job.items o item

/-- A memory that differs in the immediates of the calls of a function only, which hold the
addresses of the functions they name. -/
structure Job.Patched (job : Job) (target : StringView → Ptr) (mem mem' : Mem) : Prop where
  calls : ∀ site ∈ job.sites, read64 mem' site.patchLocation = target site.targetName
  rest : ∀ x, (x - job.code).toNat < job.size →
    (∀ site ∈ job.sites, 8 ≤ (x - site.patchLocation).toNat) → mem' x = mem x

theorem readBytes_congr {m m' : Mem} {a : Word} {n : Nat}
    (h : ∀ i < n, m' (a + BitVec.ofNat 64 i) = m (a + BitVec.ofNat 64 i)) :
    readBytes m' a n = readBytes m a n := by
  refine List.ext_getElem (by simp) fun i h₁ h₂ => ?_
  rw [getElem_readBytes, getElem_readBytes]
  exact h i (by simpa using h₁)

section

variable {job : Job} {target : StringView → Ptr} {mem mem' : Mem}

theorem Job.Emitted.congr (h : job.Emitted mem)
    (hsame : ∀ x, (x - job.code).toNat < job.size → mem' x = mem x)
    (hbuffer : Buffer job.code job.size) : job.Emitted mem' := by
  intro o item hitem
  have hbound := (layout_bounds hitem).2
  rw [Nat.zero_add, Job.items_size] at hbound
  have hfits := hbuffer.fits
  rw [← h o item hitem]
  refine readBytes_congr fun i hi => hsame _ ?_
  unfold at'
  bv_omega

/-- A byte that belongs to no immediate. -/
theorem Job.Patched.byte (h : job.Patched target mem mem') (hbuffer : Buffer job.code job.size)
    {o i : Nat} {item : Item} (hitem : (o, item) ∈ layout 0 job.items) (hi : i < item.size)
    (hfront : ∀ name, item = .callSite name → i < callSiteOpcode.length) :
    mem' (at' job.code o + BitVec.ofNat 64 i) = mem (at' job.code o + BitVec.ofNat 64 i) := by
  have hbound := (layout_bounds hitem).2
  rw [Nat.zero_add, Job.items_size] at hbound
  have hfits := hbuffer.fits
  have hopcode : callSiteOpcode.length = 2 := rfl
  refine h.rest _ ?_ fun site hsite => ?_
  · unfold at'
    bv_omega
  · obtain ⟨o', name, hitem', rfl, hinside⟩ := Job.site_inside hsite
    have hapart : o + i < o' + callSiteOpcode.length ∨ o' + callSiteOpcode.length + 8 ≤ o + i := by
      rcases layout_apart hitem hitem' with ⟨rfl, rfl⟩ | hle | hle
      · have := hfront name rfl
        omega
      · omega
      · simp only [Item.size] at hle
        omega
    unfold at'
    simp only []
    bv_omega

/-- The code of a function whose calls have been patched is linked. -/
theorem Job.Patched.placed (h : job.Patched target mem mem') (hemitted : job.Emitted mem)
    (hbuffer : Buffer job.code job.size) : Placed mem' job.code target job.items := by
  intro o item hitem e he
  have hbytes := hemitted o item hitem
  by_cases hsite : ∃ name, item = .callSite name
  · obtain ⟨name, rfl⟩ := hsite
    obtain rfl := Option.some.inj he
    have hsize : (Item.callSite name).size = callSiteOpcode.length + 8 := rfl
    have hfront : readBytes mem' (at' job.code o) callSiteOpcode.length = callSiteOpcode := by
      have hfixed : itemBytes job.items o (.callSite name) =
          callSiteOpcode ++ leBytes 8 callPlaceholder.toNat := rfl
      rw [hsize, hfixed, readBytes_add] at hbytes
      rw [← (List.append_inj hbytes (by simp)).1]
      rw [readBytes_length]
      exact readBytes_congr fun i hi => h.byte hbuffer hitem (by omega) fun _ _ => hi
    have hmem : (⟨at' job.code (o + callSiteOpcode.length), name⟩ : CallSite) ∈ job.sites :=
      List.mem_filterMap.mpr ⟨(o, .callSite name), hitem, rfl⟩
    have hback := leBytes_read64 mem' (at' job.code (o + callSiteOpcode.length))
    rw [h.calls _ hmem] at hback
    have hcode : (movImm .rax (target name)).bytes =
        callSiteOpcode ++ leBytes 8 (target name).toNat := rfl
    unfold CodeAt
    rw [hcode, List.length_append, leBytes_length, readBytes_add, hfront, add_ofNat_add, ← hback]
  · have hencoded : itemEncoded job.items o item = some e := by
      cases item with
      | callSite name => exact absurd ⟨name, rfl⟩ hsite
      | code e' => exact he
      | jump c l => exact he
      | label l => exact he
    have hitemBytes := itemEncoded_bytes job.items o item
    rw [hencoded, Option.map_some, Option.getD_some] at hitemBytes
    have hlength : e.bytes.length = item.size := by
      rw [hitemBytes, itemBytes_length]
    unfold CodeAt
    rw [hlength, hitemBytes, ← hbytes]
    exact readBytes_congr fun i hi => h.byte hbuffer hitem hi fun name hname =>
      absurd ⟨name, hname⟩ hsite

end

/-! ## Compiling -/

section

variable {job : Job} {jobs : List Job} {s s' : JITState} {errors : ErrorContext} {mem : Mem}

/-- One function is emitted. -/
theorem emitted_job {result : JITResult}
    (hgenerated : ∃ fresh root errors filename g,
      irGen fresh root errors filename = .ok (true, g) ∧ job.f = g.f)
    (hbuffer : Buffer job.code job.size)
    (hcompiled : jitCompileFunction job.f job.name job.paramCount job.code s =
      some (.returned result, s')) (hresult : result.code ≠ 0) :
    Compilable job.paramCount job.f ∧ job.Emitted s'.mem := by
  obtain ⟨fresh, root, errors, filename, g, hgen, hf⟩ := hgenerated
  obtain ⟨hlabels, hlimit⟩ := irGen_labels hgen
  rw [← hf] at hlabels hlimit
  obtain ⟨hcompilable, -, rfl⟩ := compiled_registered hcompiled hresult hlimit
  have hitems : functionItems s.ctx job.f job.paramCount = job.items :=
    functionItems_congr s.ctx jitCtxInit job.f job.paramCount
  have hsize : functionSize s.ctx job.f job.paramCount = job.size := by
    rw [← functionItems_size, hitems, Job.items_size]
  have hwritten := compiledState_written hcompilable hlabels (hsize ▸ hbuffer)
  rw [hitems] at hwritten
  refine ⟨hcompilable, fun o item hitem => ?_⟩
  refine hwritten.item (fun c l hjump => ?_) hitem
  exact functionItems_closed hlabels jitCtxInit job.paramCount hjump

/-- All functions are emitted, and stay so. -/
theorem compileJobs_emitted (hproper : ∀ job ∈ jobs, job.Proper) (hapart : BuffersApart jobs)
    (h : compileJobs jobs s = some s') :
    ∀ job ∈ jobs, Compilable job.paramCount job.f ∧ job.Emitted s'.mem := by
  induction jobs generalizing s with
  | nil => exact fun _ hmem => absurd hmem List.not_mem_nil
  | cons first jobs ih =>
    obtain ⟨hfirst, hrest⟩ := List.pairwise_cons.mp hapart
    have hproperRest : ∀ job ∈ jobs, job.Proper := fun job hjob =>
      hproper job (List.mem_cons_of_mem _ hjob)
    have hproperFirst := hproper first List.mem_cons_self
    unfold compileJobs at h
    split at h
    · rename_i result s₁ hcompiled
      split at h
      · cases h
      · rename_i hresult
        intro job hjob
        rcases List.mem_cons.mp hjob with rfl | hjob
        · obtain ⟨hcompilable, hemitted⟩ := emitted_job hproperFirst.generated
            hproperFirst.buffer hcompiled hresult
          have hmore := compileJobs_compiled hproperRest hrest h
          refine ⟨hcompilable, hemitted.congr (fun x hx => ?_) hproperFirst.buffer⟩
          refine hmore.outside x fun other hother => ?_
          obtain ⟨hafter, hbefore⟩ := hfirst other hother
          have hfits := hproperFirst.buffer.fits
          have hfits' := (hproperRest other hother).buffer.fits
          bv_omega
        · exact ih hproperRest hrest h job hjob
    · cases h

/-! ## Linking -/

theorem BuffersApart.apart (h : BuffersApart jobs) {other : Job} (hother : other ∈ jobs)
    (hjob : job ∈ jobs) (hne : other ≠ job) : Apart other.code other.size job.code job.size := by
  have hsymm : Std.Symm fun job job' : Job => Apart job.code job.size job'.code job'.size :=
    ⟨fun _ _ hapart => hapart.symm⟩
  exact List.Pairwise.forall h hother hjob hne

/-- A byte outside of all patches. -/
theorem linkSites_outside {registry : List CompiledFunction} {sites : List CallSite}
    {success : Bool} {x : Ptr} (h : ∀ site ∈ sites, 8 ≤ (x - site.patchLocation).toNat) :
    (linkSites registry sites (success, mem, errors)).2.1 x = mem x := by
  induction sites generalizing success mem errors with
  | nil => rfl
  | cons site sites ih =>
    rw [List.forall_mem_cons] at h
    simp only [linkSites]
    split
    · exact ih h.2
    · refine (ih h.2).trans (writeBytes_outside _ _ _ _ ?_)
      rw [leBytes_length]
      exact h.1

/-- After a successful linking every function is linked, if all calls are recorded. -/
theorem jitLinkAll_placed (hproper : ∀ job ∈ jobs, job.Proper) (hapart : BuffersApart jobs)
    (hcompiled : compileJobs jobs ⟨jitCtxInit, mem⟩ = some s)
    (hsites : (calledNames jobs).length ≤ maxCallSites)
    (hlinked : (jitLinkAll s errors).1 = true) : ∀ job ∈ jobs,
      Placed (jitLinkAll s errors).2.1 job.code (findTarget s.ctx.registry) job.items := by
  have h := compileJobs_compiled hproper hapart hcompiled
  have hall : s.ctx.callSites = jobs.flatMap Job.sites := by
    have hrecorded : s.ctx.callSites = (jobs.flatMap Job.sites).take maxCallSites := h.sites
    rw [calledNames_eq, List.length_map] at hsites
    rw [hrecorded, List.take_of_length_le hsites]
  have hpairwise := jobs_sites_apart hproper hapart
  intro job hjob
  obtain ⟨-, hemitted⟩ := compileJobs_emitted hproper hapart hcompiled job hjob
  have hbuffer := (hproper job hjob).buffer
  refine Job.Patched.placed ⟨fun site hsite => ?_, fun x hx houtside => ?_⟩ hemitted hbuffer
  · have hmem : site ∈ s.ctx.callSites := by
      rw [hall]
      exact List.mem_flatMap.mpr ⟨job, hjob, hsite⟩
    unfold jitLinkAll at hlinked ⊢
    rw [linkSites_success, Bool.true_and, List.all_eq_true] at hlinked
    exact linkSites_patched hmem (hall ▸ hpairwise) (bne_iff_ne.mp (hlinked site hmem))
  · unfold jitLinkAll
    rw [hall]
    refine linkSites_outside fun site hsite => ?_
    obtain ⟨other, hother, hsite⟩ := List.mem_flatMap.mp hsite
    by_cases heq : other = job
    · exact houtside site (heq ▸ hsite)
    · -- the immediates of other functions are in their buffers
      have hbuffers := hapart.apart hother hjob heq
      obtain ⟨o, name, -, rfl, hinside⟩ := Job.site_inside hsite
      have hfits := hbuffer.fits
      have hfits' := (hproper other hother).buffer.fits
      obtain ⟨hafter, hbefore⟩ := hbuffers
      unfold at'
      simp only []
      bv_omega

end

/-! ## One function -/

/-- The code that `jit_compile_function` emits for a function, once its calls are patched,
computes what the instructions of the function do, if the functions it calls keep the
convention: entered with the arguments it returns what the run of its instructions returns, and
the registers and the memory of its caller are as they were. -/
theorem compiled_computes {fresh : IRFunction} {root : ASTNode} {errors : ErrorContext}
    {filename : Option String} {g : GenState} {name : StringView} {code : Ptr}
    {result : JITResult} {s s' : JITState} {target : StringView → Ptr} {mem : Mem}
    {room room' : Nat} {oracle : Oracle} {args : List Word} {s₀ : State} {rs w : RunState}
    {v : Word}
    (hcomplete : root.CompleteFunction) (hslots : fresh.stackCount = 0)
    (hgen : irGen fresh root errors filename = .ok (true, g)) (herrors : g.f.errors = errors)
    (hbuffer : Buffer code (functionSize s.ctx g.f root.params.length))
    (hcompiled : jitCompileFunction g.f name root.params.length code s =
      some (.returned result, s')) (hresult : result.code ≠ 0)
    (hpatched : Job.Patched ⟨g.f, name, root.params.length, code⟩ target s'.mem mem)
    (hanswers : Answers mem room' target oracle) (hroom : room + 2 ^ 33 ≤ room')
    (hroom' : room' < 2 ^ 62) (hcount : args.length = root.params.length) (hentry : Entry args s₀)
    (hstart : Starts args g.f s₀ rs)
    (hrun : Results (runStep oracle g.f.instructions) (0, rs) (v, w)) :
    ∃ s₁, Steps mem ⟨code, s₀⟩ ⟨read64 s₀.mem (s₀.regs .rsp), s₁⟩ ∧ Served room v s₀ s₁ := by
  have hstack := irGen_stackCount hcomplete hgen herrors
  rw [hslots, Nat.zero_add] at hstack
  have hrunnable := Runnable.of_irGen hgen herrors hstack
  have hitems : functionItems s.ctx g.f root.params.length =
      functionItems jitCtxInit g.f root.params.length := functionItems_congr ..
  have hsize : functionSize s.ctx g.f root.params.length =
      functionSize jitCtxInit g.f root.params.length := by
    rw [← functionItems_size, hitems, functionItems_size]
  have hbuffer' : Buffer code (functionSize jitCtxInit g.f root.params.length) := hsize ▸ hbuffer
  obtain ⟨hcompilable, hemitted⟩ := @emitted_job ⟨g.f, name, root.params.length, code⟩ s s' result
    ⟨_, _, _, _, _, hgen, rfl⟩ hbuffer' hcompiled hresult
  have hplaced := hpatched.placed hemitted hbuffer'
  have hsmall := functionSize_le hcompilable hrunnable.wellFormed.limit jitCtxInit
  have hlinked : Linked mem code target jitCtxInit args.length g.f := by
    rw [hcount]
    exact ⟨hrunnable, hsmall, hplaced⟩
  exact hlinked.results hanswers hroom hroom' hentry hstart hrun

/-- The registers and slots in which a function with the argument two starts. -/
def twoState : RunState := ⟨fun r => if r = 1 then 2 else 0, fun _ => 0, [], []⟩

/-- A function without calls and locals comes to zero from two. -/
def countsToZero (g : GenState) : Bool :=
  decide (g.f.errors = .init) && decide (g.f.labelCount < maxLabels) &&
    decide (g.f.stackCount = 0) && g.f.instructions.all (fun inst => inst.opcode != .call) &&
    ((iterate (runStep (fun _ => none) g.f.instructions) 30 (0, twoState)).map (·.1) == some 0)

/-- A machine that enters a function with the argument two. -/
def twoMachine : State := ⟨fun r => if r = .rdi then 2 else 0x7fff0008, none, fun _ => 0⟩

theorem compiled_computes_countDown : ∃ g s' w,
    irGen .zeroed countDown .init none = .ok (true, g) ∧
      jitCompileFunction g.f (svOf "main") countDown.params.length 0x10000
        ⟨jitCtxInit, fun _ => 0⟩ =
          some (.returned ⟨0x10000, functionSize jitCtxInit g.f countDown.params.length⟩, s') ∧
      Results (runStep (fun _ => none) g.f.instructions) (0, twoState) (0, w) ∧
      ∃ s₁, Steps s'.mem ⟨0x10000, twoMachine⟩ ⟨0, s₁⟩ ∧ Served (2 ^ 60) 0 twoMachine s₁ := by
  obtain ⟨g, hgen, hzero⟩ := exists_of_generatesWith
    (show generatesWith .zeroed countDown .init none countsToZero = true by decide +kernel)
  simp only [countsToZero, Bool.and_eq_true, decide_eq_true_eq, List.all_eq_true, bne_iff_ne,
    beq_iff_eq] at hzero
  obtain ⟨⟨⟨⟨herrors, hlabels⟩, hslots⟩, hcalls⟩, hiterate⟩ := hzero
  obtain ⟨⟨v, w⟩, hw, rfl⟩ := Option.map_eq_some_iff.mp hiterate
  obtain ⟨hf, -, -, -⟩ := irGen_wellFormed hgen herrors
  have hcompilable := wellFormed_compilable hf hlabels
  obtain ⟨s', hcompiled⟩ := jitCompileFunction_registers hcompilable hf.limit (svOf "main") 0x10000
    (show (⟨jitCtxInit, fun _ => 0⟩ : JITState).ctx.registry.length < maxFunctionCount from
      Nat.zero_lt_succ 255)
  have hsize := functionSize_le hcompilable hf.limit jitCtxInit
  have hbuffer : Buffer 0x10000 (functionSize jitCtxInit g.f countDown.params.length) :=
    ⟨by decide, by show 0x10000 + _ < _; omega⟩
  have hpatched : Job.Patched ⟨g.f, svOf "main", countDown.params.length, 0x10000⟩ (fun _ => 0)
      s'.mem s'.mem := by
    refine ⟨fun site hsite => ?_, fun _ _ _ => rfl⟩
    obtain ⟨pre, inst, post, hsplit, hop, -⟩ := Job.mem_sites.mp hsite
    refine absurd hop (hcalls inst ?_)
    rw [hsplit]
    simp
  have hanswers : Answers s'.mem (2 ^ 61) (fun _ => 0) fun _ => none :=
    fun name args v h => by cases h
  have hcomplete : countDown.CompleteFunction :=
    ⟨rfl, ⟨trivial, trivial, trivial⟩, .inr trivial, trivial⟩
  have hcode : (0x10000 : Ptr) ≠ 0 := by decide
  have hstart : Starts [2] g.f twoMachine twoState := by
    refine ⟨fun k hk => ?_, fun i hi => absurd hi (by omega), rfl⟩
    obtain rfl : k = 0 := Nat.lt_one_iff.mp hk
    rfl
  exact ⟨g, s', w, hgen, hcompiled, ⟨30, hw⟩,
    compiled_computes hcomplete rfl hgen herrors hbuffer hcompiled hcode hpatched
      hanswers (by decide) (by decide) rfl ⟨rfl, rfl, by decide⟩ hstart ⟨30, hw⟩⟩

end TinyCompile.Jit
