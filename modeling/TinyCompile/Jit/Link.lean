import TinyCompile.Jit.Balance
import TinyCompile.Jit.Jumps
import TinyCompile.Jit.Sites
import TinyCompile.Machine.Regions

set_option autoImplicit false

/-!
# Jit: linking

`encode_call` records a call site while there is room in the list, which all functions share,
and `jit_link_all` writes the addresses of the sites that are recorded.  A call whose site is
not recorded keeps its placeholder.
-/

namespace TinyCompile.Jit

open TinyCompile.Machine TinyCompile.X86 TinyCompile.Source TinyCompile.Ir

/-! ## Functions to compile -/

/-- A function to compile, with the buffer that the arena returns for it. -/
structure Job where
  f : IRFunction
  name : StringView
  paramCount : Nat
  code : Ptr

namespace Job

variable (job : Job)

/-- The items of the function, in every context. -/
def items : List Item := functionItems jitCtxInit job.f job.paramCount

/-- The number of bytes of the function. -/
def size : Nat := functionSize jitCtxInit job.f job.paramCount

/-- Where the immediate of a call is: behind the arguments and the two bytes of the opcode. -/
def immediate (pre : List IRInstruction) (call : IRInstruction) : Ptr :=
  let ctx := (jitCtxInit.entered job.f job.paramCount).afterAll pre
  at' job.code (endOffset jitCtxInit job.f job.paramCount pre +
    (bytesOf (argumentCode (ctx.after call).vregMap ctx.pendingCall)).length +
      callSiteOpcode.length)

/-- The call sites of the function, in order. -/
def sites : List CallSite := sitesOf job.code (layout 0 job.items)

/-- What is registered of the function. -/
def entry : CompiledFunction := ⟨job.name, job.code, job.size⟩

/-- What `ir_gen` and the arena promise: generated code, and an aligned buffer of the size of
the function. -/
structure Proper : Prop where
  generated : ∃ fresh root errors filename g,
    irGen fresh root errors filename = .ok (true, g) ∧ job.f = g.f
  buffer : Buffer job.code job.size
  aligned : job.code.toNat % stackAlignment = 0

end Job

/-- The buffers do not overlap. -/
def BuffersApart (jobs : List Job) : Prop :=
  jobs.Pairwise fun job job' => Apart job.code job.size job'.code job'.size

/-- `jit_compile_pass` as far as it calls `jit_compile_function`; `none` where a function is
not compiled. -/
def compileJobs : List Job → JITState → Option JITState
  | [], s => some s
  | job :: rest, s =>
      match jitCompileFunction job.f job.name job.paramCount job.code s with
      | some (.returned result, s') => if result.code = 0 then none else compileJobs rest s'
      | _ => none

/-- The names that are called, in order. -/
def calledNames (jobs : List Job) : List StringView :=
  jobs.flatMap fun job =>
    (job.f.instructions.filter fun inst => inst.opcode == .call).map (·.funcName)

/-! ## Items and calls -/

section

variable {code : Ptr}

@[simp] theorem sitesOf_append (es es' : List (Nat × Item)) :
    sitesOf code (es ++ es') = sitesOf code es ++ sitesOf code es' := by
  simp [sitesOf]

theorem sitesOf_plain {off : Nat} {items : List Item}
    (h : ∀ item ∈ items, ∀ n, item ≠ .callSite n) :
    sitesOf code (layout off items) = [] := by
  refine List.filterMap_eq_nil_iff.mpr fun e he => ?_
  obtain ⟨o, item⟩ := e
  have hitem := h item (mem_of_mem_layout he)
  cases item with
  | callSite name => exact absurd rfl (hitem name)
  | _ => rfl

theorem code_plain (es : List Encoded) : ∀ item ∈ es.map Item.code, ∀ n, item ≠ .callSite n := by
  intro item hitem n heq
  obtain ⟨e, -, rfl⟩ := List.mem_map.mp hitem
  cases heq

/-- Only a call has a call site. -/
theorem itemsOf_plain {inst : IRInstruction} (h : inst.opcode ≠ .call) (loc : Nat → Location)
    (pending : List Nat) : ∀ item ∈ itemsOf loc pending inst, ∀ n, item ≠ .callSite n := by
  unfold itemsOf
  cases hop : inst.opcode with
  | call => exact absurd hop h
  | arg => simp
  | label => simp
  | jmp => simp
  | jz | jnz =>
    intro item hitem n
    rcases List.mem_append.mp hitem with hitem | hitem
    · exact code_plain _ item hitem n
    · rw [List.mem_singleton.mp hitem]
      simp
  | _ => exact code_plain _

/-- The call site of an instruction. -/
theorem sitesOf_inst (loc : Nat → Location) (pending : List Nat) (inst : IRInstruction)
    (off : Nat) : sitesOf code (layout off (itemsOf loc pending inst)) =
      if inst.opcode = .call then
        [⟨at' code (off + (bytesOf (argumentCode loc pending)).length + callSiteOpcode.length),
          inst.funcName⟩]
      else [] := by
  split
  · rename_i hop
    simp only [itemsOf, hop]
    rw [layout_append, sitesOf_append, sitesOf_plain (code_plain _), itemsSize_code,
      List.nil_append, layout]
    have hrest : sitesOf code (layout (off + (bytesOf (argumentCode loc pending)).length +
        (Item.callSite inst.funcName).size)
        ((callRax :: cleanupCode pending (loc inst.dest)).map Item.code)) = [] :=
      sitesOf_plain (code_plain _)
    rw [← List.singleton_append, sitesOf_append, hrest, List.append_nil]
    rfl
  · rename_i hop
    exact sitesOf_plain (itemsOf_plain hop loc pending)

theorem sitesOf_plan (ctx : JITContext) (insts : List IRInstruction) (off : Nat) :
    (sitesOf code (layout off (ctx.planItems insts))).map (·.targetName) =
      (insts.filter fun inst => inst.opcode == .call).map (·.funcName) := by
  induction insts generalizing ctx off with
  | nil => rfl
  | cons inst insts ih =>
    rw [JITContext.planItems, layout_append, sitesOf_append, List.map_append, ih, sitesOf_inst]
    by_cases hop : inst.opcode = .call
    · simp [hop]
    · simp [hop]

theorem mem_sitesOf_plan {ctx : JITContext} {insts : List IRInstruction} {off : Nat}
    {site : CallSite} : site ∈ sitesOf code (layout off (ctx.planItems insts)) ↔
      ∃ pre inst post, insts = pre ++ inst :: post ∧ inst.opcode = .call ∧
        site = ⟨at' code (off + ctx.sizeOfAll pre +
          (bytesOf (argumentCode ((ctx.afterAll pre).after inst).vregMap
            (ctx.afterAll pre).pendingCall)).length + callSiteOpcode.length), inst.funcName⟩ := by
  induction insts generalizing ctx off with
  | nil => simp [JITContext.planItems, layout, sitesOf]
  | cons inst insts ih =>
    have hsize : itemsSize (itemsOf (ctx.after inst).vregMap ctx.pendingCall inst) =
        ctx.sizeOf inst := rfl
    rw [JITContext.planItems, layout_append, sitesOf_append, List.mem_append, ih, sitesOf_inst,
      hsize]
    constructor
    · rintro (hsite | ⟨pre, call, post, rfl, hop, rfl⟩)
      · split at hsite
        · rename_i hop
          exact ⟨[], inst, insts, rfl, hop, List.mem_singleton.mp hsite⟩
        · cases hsite
      · refine ⟨inst :: pre, call, post, rfl, hop, ?_⟩
        rw [JITContext.sizeOfAll, JITContext.afterAll_cons, ← Nat.add_assoc off]
    · rintro ⟨pre, call, post, heq, hop, rfl⟩
      cases pre with
      | nil =>
        obtain ⟨rfl, rfl⟩ := List.cons.inj heq
        left
        rw [if_pos hop]
        exact List.mem_singleton.mpr rfl
      | cons first pre =>
        obtain ⟨rfl, rfl⟩ := List.cons.inj heq
        refine .inr ⟨pre, call, post, rfl, hop, ?_⟩
        rw [JITContext.sizeOfAll, JITContext.afterAll_cons, ← Nat.add_assoc off]

end

section

variable {job : Job}

theorem Job.items_size : itemsSize job.items = job.size := functionItems_size ..

/-- The call sites of a function are those of its calls. -/
theorem Job.mem_sites {site : CallSite} : site ∈ job.sites ↔
    ∃ pre inst post, job.f.instructions = pre ++ inst :: post ∧ inst.opcode = .call ∧
      site = ⟨job.immediate pre inst, inst.funcName⟩ := by
  unfold Job.sites Job.items functionItems
  rw [layout_append, sitesOf_append, sitesOf_plain (code_plain _), List.nil_append, itemsSize_code,
    Nat.zero_add]
  exact mem_sitesOf_plan

theorem Job.sites_names : job.sites.map (·.targetName) =
    (job.f.instructions.filter fun inst => inst.opcode == .call).map (·.funcName) := by
  unfold Job.sites Job.items functionItems
  rw [layout_append, sitesOf_append, sitesOf_plain (code_plain _), List.nil_append]
  exact sitesOf_plan ..

/-- A call site lies inside the buffer, behind the bytes of an item. -/
theorem Job.site_inside {site : CallSite} (h : site ∈ job.sites) :
    ∃ o name, (o, Item.callSite name) ∈ layout 0 job.items ∧
      site = ⟨at' job.code (o + callSiteOpcode.length), name⟩ ∧
      o + callSiteOpcode.length + 8 ≤ job.size := by
  obtain ⟨⟨o, item⟩, hmem, hsite⟩ := List.mem_filterMap.mp h
  cases item with
  | callSite name =>
    cases hsite
    have hbound := (layout_bounds hmem).2
    rw [Nat.zero_add, Job.items_size] at hbound
    exact ⟨o, name, hmem, rfl, by simp only [Item.size] at hbound; omega⟩
  | _ => cases hsite

end

/-! ## What compiling leaves -/

/-- What a sequence of compilations leaves: the functions are registered, the call sites are
recorded while there is room, every immediate holds the placeholder, and nothing outside the
buffers is changed. -/
structure Compiled (jobs : List Job) (s₀ s : JITState) : Prop where
  registry : s.ctx.registry = s₀.ctx.registry ++ jobs.map Job.entry
  sites : s.ctx.callSites =
    recordSites s₀.ctx.callSiteCapacity s₀.ctx.callSites (jobs.flatMap Job.sites)
  capacity : s.ctx.callSiteCapacity = s₀.ctx.callSiteCapacity
  outside : ∀ x, (∀ job ∈ jobs, job.size ≤ (x - job.code).toNat) → s.mem x = s₀.mem x
  placeholders : ∀ job ∈ jobs, ∀ site ∈ job.sites,
    read64 s.mem site.patchLocation = callPlaceholder

section

variable {job : Job} {jobs : List Job} {s s' s'' : JITState}

/-- One function. -/
theorem compiled_job {result : JITResult} (h : job.Proper)
    (hcompiled : jitCompileFunction job.f job.name job.paramCount job.code s =
      some (.returned result, s')) (hresult : result.code ≠ 0) : Compiled [job] s s' := by
  obtain ⟨⟨fresh, root, errors, filename, g, hgen, hf⟩, hbuffer, -⟩ := h
  obtain ⟨hlabels, hlimit⟩ := irGen_labels hgen
  rw [← hf] at hlabels hlimit
  obtain ⟨hcompilable, -, rfl⟩ := compiled_registered hcompiled hresult hlimit
  have hitems : functionItems s.ctx job.f job.paramCount = job.items :=
    functionItems_congr s.ctx jitCtxInit job.f job.paramCount
  have hsize : functionSize s.ctx job.f job.paramCount = job.size := by
    rw [← functionItems_size, hitems, Job.items_size]
  have hbuffer' : Buffer job.code (functionSize s.ctx job.f job.paramCount) := hsize ▸ hbuffer
  have hprogress := compiledState_progress hbuffer'
  have hwritten := compiledState_written hcompilable hlabels hbuffer'
  rw [hitems] at hprogress hwritten
  refine ⟨?_, ?_, hprogress.capacity, fun x hx => ?_, ?_⟩
  · rw [hsize]
    rfl
  · rw [List.flatMap_singleton]
    exact hprogress.sites
  · refine hprogress.outside x ?_
    rw [Job.items_size]
    exact hx job (by simp)
  · intro other hother site hsite
    obtain rfl := List.mem_singleton.mp hother
    obtain ⟨o, name, hmem, rfl, -⟩ := Job.site_inside hsite
    have hbytes := hwritten.fixed o _ hmem
    rw [Item.fixed, List.length_append, leBytes_length, readBytes_add] at hbytes
    have himmediate := (List.append_inj hbytes (by simp)).2
    rw [add_ofNat_add] at himmediate
    show read64 _ (at' other.code (o + callSiteOpcode.length)) = callPlaceholder
    unfold read64
    rw [himmediate]
    exact ofNat_leNat_leBytes_eight _

/-- An immediate is outside the buffers of other functions. -/
theorem site_outside {other : Job} {site : CallSite} (hsite : site ∈ job.sites)
    (hbuffer : Buffer job.code job.size)
    (hapart : Apart job.code job.size other.code other.size) {i : Nat} (hi : i < 8) :
    other.size ≤ (site.patchLocation + BitVec.ofNat 64 i - other.code).toNat := by
  obtain ⟨o, name, -, rfl, hinside⟩ := Job.site_inside hsite
  have hfits := hbuffer.fits
  rw [add_ofNat_add]
  exact hapart.symm.outside (by omega) (by omega)

theorem Compiled.cons (h : Compiled [job] s s') (h' : Compiled jobs s' s'')
    (hbuffer : Buffer job.code job.size)
    (hapart : ∀ other ∈ jobs, Apart job.code job.size other.code other.size) :
    Compiled (job :: jobs) s s'' where
  registry := by
    rw [h'.registry, h.registry, List.append_assoc]
    rfl
  sites := by
    rw [h'.sites, h.sites, h.capacity, recordSites_append, List.flatMap_singleton]
    rfl
  capacity := h'.capacity.trans h.capacity
  outside := by
    intro x hx
    rw [h'.outside x fun other hother => hx other (List.mem_cons_of_mem _ hother)]
    refine h.outside x fun other hother => hx other ?_
    rw [List.mem_singleton.mp hother]
    exact List.mem_cons_self
  placeholders := by
    intro other hother site hsite
    rcases List.mem_cons.mp hother with rfl | hother
    · rw [← h.placeholders other (by simp) site hsite]
      refine read64_congr fun i hi => h'.outside _ fun third hthird => ?_
      exact site_outside hsite hbuffer (hapart third hthird) hi
    · exact h'.placeholders other hother site hsite

/-- All functions. -/
theorem compileJobs_compiled (hproper : ∀ job ∈ jobs, job.Proper) (hapart : BuffersApart jobs)
    (h : compileJobs jobs s = some s') : Compiled jobs s s' := by
  induction jobs generalizing s with
  | nil =>
    cases h
    exact ⟨by simp, (recordSites_nil _ _).symm, rfl, fun _ _ => rfl, by simp⟩
  | cons job jobs ih =>
    obtain ⟨hfirst, hrest⟩ := List.pairwise_cons.mp hapart
    unfold compileJobs at h
    split at h
    · rename_i result s₁ hcompiled
      split at h
      · cases h
      · rename_i hresult
        have hone := compiled_job (hproper job (by simp)) hcompiled hresult
        have hmore := ih (fun other hother => hproper other (List.mem_cons_of_mem _ hother))
          hrest h
        exact hone.cons hmore (hproper job (by simp)).buffer hfirst
    · cases h

/-! ## Call sites apart -/

theorem layout_pairwise (off : Nat) (items : List Item) :
    (layout off items).Pairwise fun e e' => e.1 + e.2.size ≤ e'.1 := by
  induction items generalizing off with
  | nil => exact .nil
  | cons item items ih =>
    exact List.pairwise_cons.mpr ⟨fun e he => (layout_bounds he).1, ih _⟩

/-- Two patches do not overlap. -/
abbrev SitesApart (site site' : CallSite) : Prop :=
  Apart site.patchLocation 8 site'.patchLocation 8

theorem Job.sites_apart (h : Buffer job.code job.size) : job.sites.Pairwise SitesApart := by
  unfold Job.sites sitesOf
  rw [List.pairwise_filterMap]
  refine (layout_pairwise 0 job.items).imp_of_mem ?_
  rintro ⟨o, item⟩ ⟨o', item'⟩ he he' hle site hsite site' hsite'
  have hbound := (layout_bounds he').2
  rw [Nat.zero_add, Job.items_size] at hbound
  have hfits := h.fits
  cases item with
  | callSite name =>
    cases item' with
    | callSite name' =>
      cases hsite
      cases hsite'
      simp only [Item.size] at hle hbound
      exact apart_at (by omega) (by omega) (by omega) (by omega) (by omega)
    | _ => cases hsite'
  | _ => cases hsite

theorem jobs_sites_apart (hproper : ∀ job ∈ jobs, job.Proper) (hapart : BuffersApart jobs) :
    (jobs.flatMap Job.sites).Pairwise SitesApart := by
  refine List.pairwise_flatMap.mpr ⟨fun job hjob => Job.sites_apart (hproper job hjob).buffer, ?_⟩
  refine hapart.imp_of_mem ?_
  intro job other hjob hother hbuffers site hsite site' hsite'
  obtain ⟨o, name, -, rfl, hinside⟩ := Job.site_inside hsite
  obtain ⟨o', name', -, rfl, hinside'⟩ := Job.site_inside hsite'
  have hfits := (hproper job hjob).buffer.fits
  have hfits' := (hproper other hother).buffer.fits
  obtain ⟨hle, hle'⟩ := hbuffers
  unfold SitesApart Apart at'
  simp only []
  bv_omega

end

/-! ## The loop over the call sites -/

section

variable {registry : List CompiledFunction} {sites : List CallSite} {success : Bool} {mem : Mem}
  {errors : ErrorContext}

/-- Linking succeeds if every recorded name is found. -/
theorem linkSites_success : (linkSites registry sites (success, mem, errors)).1 =
    (success && sites.all fun site => findTarget registry site.targetName != 0) := by
  induction sites generalizing success mem errors with
  | nil => simp [linkSites]
  | cons site sites ih =>
    simp only [linkSites, List.all_cons]
    split
    · rename_i hnone
      rw [ih]
      simp [hnone]
    · rename_i hsome
      rw [ih, bne_iff_ne.mpr hsome, Bool.true_and]

/-- What is apart from all sites is not written. -/
theorem linkSites_apart {a : Ptr} (h : ∀ site ∈ sites, Apart site.patchLocation 8 a 8) :
    read64 (linkSites registry sites (success, mem, errors)).2.1 a = read64 mem a := by
  induction sites generalizing success mem errors with
  | nil => rfl
  | cons site sites ih =>
    rw [List.forall_mem_cons] at h
    simp only [linkSites]
    split
    · exact ih h.2
    · exact (ih h.2).trans (read64_writeLow_apart h.1)

/-- A recorded site gets the address of its target. -/
theorem linkSites_patched {site : CallSite} (hsite : site ∈ sites)
    (hapart : sites.Pairwise SitesApart) (htarget : findTarget registry site.targetName ≠ 0) :
    read64 (linkSites registry sites (success, mem, errors)).2.1 site.patchLocation =
      findTarget registry site.targetName := by
  induction sites generalizing success mem errors with
  | nil => cases hsite
  | cons first sites ih =>
    obtain ⟨hfirst, hrest⟩ := List.pairwise_cons.mp hapart
    simp only [linkSites]
    rcases List.mem_cons.mp hsite with rfl | hsite
    · rw [if_neg htarget, linkSites_apart fun other hother => (hfirst other hother).symm]
      exact read64_writeLow_same mem _ _
    · split
      · exact ih hsite hrest
      · exact ih hsite hrest

end

/-! ## Linked calls -/

/-- If linking succeeds every call has the address of the function of its name and none keeps
its placeholder, and linking fails exactly if some called name is not registered. -/
def CallsLinked (jobs : List Job) (s : JITState) (errors : ErrorContext) : Prop :=
  ((jitLinkAll s errors).1 = true → ∀ job ∈ jobs, ∀ pre inst post,
    job.f.instructions = pre ++ inst :: post → inst.opcode = .call →
      ∃ fn, s.ctx.registry.find? (fun fn => svEq inst.funcName fn.name) = some fn ∧
        read64 (jitLinkAll s errors).2.1 (job.immediate pre inst) = fn.codeAddr ∧
        fn.codeAddr ≠ callPlaceholder) ∧
  ((jitLinkAll s errors).1 = false ↔ ∃ job ∈ jobs, ∃ inst ∈ job.f.instructions,
    inst.opcode = .call ∧
      s.ctx.registry.find? (fun fn => svEq inst.funcName fn.name) = none)

/-- No function has a name. -/
def Undefined (jobs : List Job) (name : StringView) : Prop :=
  ∀ job ∈ jobs, svEq name job.name = false

/-- The list of call sites holds all calls, or linking fails at one that it holds. -/
def CallSitesSuffice (jobs : List Job) : Prop :=
  (calledNames jobs).length ≤ maxCallSites ∨
    ∃ name ∈ (calledNames jobs).take maxCallSites, Undefined jobs name

section

variable {jobs : List Job} {s : JITState} {mem : Mem}

theorem calledNames_eq (jobs : List Job) :
    calledNames jobs = (jobs.flatMap Job.sites).map (·.targetName) := by
  unfold calledNames
  rw [List.map_flatMap]
  exact List.flatMap_congr fun job _ => Job.sites_names.symm

/-- A name is found exactly if some function has it. -/
theorem find_entry (name : StringView) :
    (jobs.map Job.entry).find? (fun fn => svEq name fn.name) = none ↔ Undefined jobs name := by
  rw [List.find?_eq_none, List.forall_mem_map]
  exact forall₂_congr fun job _ => by
    rw [Bool.not_eq_true]
    exact Iff.rfl

theorem findTarget_ne {name : StringView} {fn : CompiledFunction}
    (hproper : ∀ job ∈ jobs, job.Proper)
    (h : (jobs.map Job.entry).find? (fun fn => svEq name fn.name) = some fn) :
    findTarget (jobs.map Job.entry) name = fn.codeAddr ∧ fn.codeAddr ≠ 0 ∧
      fn.codeAddr ≠ callPlaceholder := by
  obtain ⟨job, hjob, rfl⟩ := List.mem_map.mp (List.mem_of_find?_eq_some h)
  have hjob' := hproper job hjob
  refine ⟨?_, hjob'.buffer.nonNull, fun heq => ?_⟩
  · unfold findTarget
    rw [h]
  · -- the placeholder is odd
    have haligned := hjob'.aligned
    have hcode : job.code = callPlaceholder := heq
    rw [hcode] at haligned
    revert haligned
    decide

theorem findTarget_eq_zero {name : StringView} (hproper : ∀ job ∈ jobs, job.Proper) :
    findTarget (jobs.map Job.entry) name = 0 ↔ Undefined jobs name := by
  rw [← find_entry]
  cases hfind : (jobs.map Job.entry).find? (fun fn => svEq name fn.name) with
  | none => simp [findTarget, hfind]
  | some fn =>
    obtain ⟨htarget, hne, -⟩ := findTarget_ne hproper hfind
    rw [htarget]
    exact iff_of_false hne (Option.some_ne_none fn)

/-- A call by its call site. -/
theorem exists_call_iff {P : StringView → Prop} :
    (∃ job ∈ jobs, ∃ inst ∈ job.f.instructions, inst.opcode = .call ∧ P inst.funcName) ↔
      ∃ site ∈ jobs.flatMap Job.sites, P site.targetName := by
  constructor
  · rintro ⟨job, hjob, inst, hinst, hop, hP⟩
    obtain ⟨pre, post, hsplit⟩ := List.append_of_mem hinst
    exact ⟨_, List.mem_flatMap.mpr
      ⟨job, hjob, Job.mem_sites.mpr ⟨pre, inst, post, hsplit, hop, rfl⟩⟩, hP⟩
  · rintro ⟨site, hsite, hP⟩
    obtain ⟨job, hjob, hsite⟩ := List.mem_flatMap.mp hsite
    obtain ⟨pre, inst, post, hsplit, hop, rfl⟩ := Job.mem_sites.mp hsite
    refine ⟨job, hjob, inst, ?_, hop, hP⟩
    rw [hsplit]
    simp

/-- After a sequence of compilations into one context, linking is right if and only if the list
of call sites suffices. -/
theorem callsLinked_iff (hproper : ∀ job ∈ jobs, job.Proper) (hapart : BuffersApart jobs)
    (hcompiled : compileJobs jobs ⟨jitCtxInit, mem⟩ = some s) (errors : ErrorContext) :
    CallsLinked jobs s errors ↔ CallSitesSuffice jobs := by
  have h := compileJobs_compiled hproper hapart hcompiled
  have hregistry : s.ctx.registry = jobs.map Job.entry := h.registry
  have hsites : s.ctx.callSites = (jobs.flatMap Job.sites).take maxCallSites := h.sites
  have hpairwise := jobs_sites_apart hproper hapart
  have hrecorded : s.ctx.callSites.Pairwise SitesApart := by
    rw [hsites]
    exact hpairwise.sublist (List.take_sublist _ _)
  have hnames : (calledNames jobs).take maxCallSites = s.ctx.callSites.map (·.targetName) := by
    rw [hsites, calledNames_eq, List.map_take]
  have hlength : (calledNames jobs).length = (jobs.flatMap Job.sites).length := by
    rw [calledNames_eq, List.length_map]
  -- linking succeeds if every recorded name is defined
  have hsuccess : (jitLinkAll s errors).1 = true ↔
      ∀ site ∈ s.ctx.callSites, ¬ Undefined jobs site.targetName := by
    unfold jitLinkAll
    rw [linkSites_success, Bool.true_and, List.all_eq_true, hregistry]
    exact forall₂_congr fun site _ => by
      rw [bne_iff_ne, ne_eq, findTarget_eq_zero hproper]
  unfold CallsLinked CallSitesSuffice
  rw [hnames, hregistry]
  simp only [find_entry]
  rw [exists_call_iff]
  by_cases hroom : (calledNames jobs).length ≤ maxCallSites
  · -- every call site is recorded
    have hall : s.ctx.callSites = jobs.flatMap Job.sites := by
      rw [hsites, List.take_of_length_le (hlength ▸ hroom)]
    refine iff_of_true ⟨fun hok job hjob pre inst post hsplit hop => ?_, ?_⟩ (.inl hroom)
    · have hmem : (⟨job.immediate pre inst, inst.funcName⟩ : CallSite) ∈ s.ctx.callSites := by
        rw [hall]
        exact List.mem_flatMap.mpr
          ⟨job, hjob, Job.mem_sites.mpr ⟨pre, inst, post, hsplit, hop, rfl⟩⟩
      have hdefined := hsuccess.mp hok _ hmem
      cases hfind : (jobs.map Job.entry).find? (fun fn => svEq inst.funcName fn.name) with
      | none => exact absurd (find_entry _ |>.mp hfind) hdefined
      | some fn =>
        obtain ⟨htarget, hne, hplaceholder⟩ := findTarget_ne hproper hfind
        refine ⟨fn, rfl, ?_, hplaceholder⟩
        have hpatched := @linkSites_patched (jobs.map Job.entry) s.ctx.callSites true s.mem errors
          _ hmem hrecorded (htarget ▸ hne)
        rw [htarget] at hpatched
        unfold jitLinkAll
        rw [hregistry]
        exact hpatched
    · rw [← Bool.not_eq_true, hsuccess, hall]
      push Not
      exact Iff.rfl
  · by_cases hundefined : ∃ site ∈ s.ctx.callSites, Undefined jobs site.targetName
    · -- linking fails at a recorded name
      have hfails : ¬ (jitLinkAll s errors).1 = true := by
        rw [hsuccess]
        push Not
        exact hundefined
      obtain ⟨site, hsite, hnone⟩ := hundefined
      refine iff_of_true ⟨fun hok => absurd hok hfails, ?_⟩ (.inr ?_)
      · refine iff_of_true (Bool.eq_false_of_not_eq_true hfails) ⟨site, ?_, hnone⟩
        rw [hsites] at hsite
        exact List.mem_of_mem_take hsite
      · exact ⟨site.targetName, List.mem_map.mpr ⟨site, hsite, rfl⟩, hnone⟩
    · -- the first site that is not recorded keeps its placeholder
      have hok : (jitLinkAll s errors).1 = true := by
        rw [hsuccess]
        intro site hsite hnone
        exact hundefined ⟨site, hsite, hnone⟩
      refine iff_of_false (fun hlinked => ?_) ?_
      · have hlast : maxCallSites < (jobs.flatMap Job.sites).length := by omega
        have hmem := List.getElem_mem hlast
        obtain ⟨job, hjob, hsite⟩ := List.mem_flatMap.mp hmem
        obtain ⟨pre, inst, post, hsplit, hop, heq⟩ := Job.mem_sites.mp hsite
        obtain ⟨fn, -, hread, hne⟩ := hlinked.1 hok job hjob pre inst post hsplit hop
        have hkept : read64 s.mem (job.immediate pre inst) = callPlaceholder := by
          have := h.placeholders job hjob _ hsite
          rwa [heq] at this
        refine hne (hread.symm.trans (Eq.trans ?_ hkept))
        unfold jitLinkAll
        refine linkSites_apart fun other hother => ?_
        rw [hsites] at hother
        obtain ⟨i, hi, hother⟩ := List.mem_take_iff_getElem.mp hother
        have hlt : i < maxCallSites := by omega
        have hsitesApart :=
          List.pairwise_iff_getElem.mp hpairwise i maxCallSites (by omega) hlast hlt
        rw [hother, heq] at hsitesApart
        exact hsitesApart
      · rintro (hle | ⟨name, hname, hnone⟩)
        · exact hroom hle
        · obtain ⟨site, hsite, rfl⟩ := List.mem_map.mp hname
          exact hundefined ⟨site, hsite, hnone⟩

/-- A generated function is compiled into an empty context. -/
theorem exists_compiled {fresh : IRFunction} {root : ASTNode} {g : GenState}
    (hgen : irGen fresh root .init none = .ok (true, g)) (herrors : g.f.errors = .init)
    (hlabels : g.f.labelCount < maxLabels) (name : StringView) (mem : Mem) :
    ∃ s, compileJobs [⟨g.f, name, root.params.length, 0x10000#64⟩] ⟨jitCtxInit, mem⟩ = some s ∧
      (∀ job ∈ [(⟨g.f, name, root.params.length, 0x10000#64⟩ : Job)], job.Proper) := by
  obtain ⟨hf, -, -, -⟩ := irGen_wellFormed hgen herrors
  have h := wellFormed_compilable hf hlabels
  obtain ⟨s, hcompiled⟩ := jitCompileFunction_registers h hf.limit name 0x10000#64
    (show (⟨jitCtxInit, mem⟩ : JITState).ctx.registry.length < maxFunctionCount from
      Nat.zero_lt_succ 255)
  have hsize := functionSize_le h hf.limit jitCtxInit
  refine ⟨s, ?_, ?_⟩
  · unfold compileJobs
    rw [hcompiled]
    rfl
  · rw [List.forall_mem_singleton]
    have hnonNull : (0x10000#64 : Ptr) ≠ 0 := by decide
    have haligned : (0x10000#64 : Ptr).toNat % stackAlignment = 0 := by decide
    refine ⟨⟨fresh, root, .init, none, g, hgen, rfl⟩, ⟨hnonNull, ?_⟩, haligned⟩
    show (0x10000#64 : Ptr).toNat + functionSize jitCtxInit g.f root.params.length < 2 ^ 64
    simp only [BitVec.toNat_ofNat]
    omega

theorem callsLinked_iff_callG : ∃ g s,
    irGen .zeroed callG .init none = .ok (true, g) ∧
      compileJobs [⟨g.f, svOf "main", 0, 0x10000#64⟩] ⟨jitCtxInit, fun _ => 0⟩ = some s ∧
      (CallsLinked [⟨g.f, svOf "main", 0, 0x10000#64⟩] s .init ↔
        CallSitesSuffice [⟨g.f, svOf "main", 0, 0x10000#64⟩]) := by
  obtain ⟨g, hgen, herrors, hlabels⟩ :=
    exists_of_generates (show generates .zeroed callG .init none = true by decide +kernel)
  obtain ⟨s, hcompiled, hproper⟩ := exists_compiled hgen herrors hlabels (svOf "main") fun _ => 0
  exact ⟨g, s, hgen, hcompiled,
    callsLinked_iff hproper (List.pairwise_singleton _ _) hcompiled .init⟩

end

end TinyCompile.Jit
