import TinyCompile.Jit.Bytes

set_option autoImplicit false

/-!
# Jit: call sites and the rest of the memory

What a compilation changes besides its own bytes: `encode_call` records the call sites, in
order and while there is room, and nothing outside the buffer is written.
-/

namespace TinyCompile.Jit

open TinyCompile.Machine TinyCompile.X86 TinyCompile.Source TinyCompile.Ir

/-! ## Call sites of items -/

/-- The immediates of the calls among items, with the names that are called. -/
def sitesOf (code : Ptr) (entries : List (Nat × Item)) : List CallSite :=
  entries.filterMap fun e =>
    match e.2 with
    | .callSite name => some ⟨at' code (e.1 + callSiteOpcode.length), name⟩
    | _ => none

/-- What is recorded of some call sites behind others. -/
def recordSites (capacity : Nat) (known sites : List CallSite) : List CallSite :=
  known ++ sites.take (capacity - known.length)

theorem recordSites_nil (capacity : Nat) (known : List CallSite) :
    recordSites capacity known [] = known := by
  simp [recordSites]

theorem recordSites_snoc (capacity : Nat) (known sites : List CallSite) (site : CallSite) :
    recordSites capacity known (sites ++ [site]) =
      if (recordSites capacity known sites).length < capacity then
        recordSites capacity known sites ++ [site]
      else recordSites capacity known sites := by
  unfold recordSites
  rw [List.length_append, List.length_take]
  split
  · have hfits : (sites ++ [site]).length ≤ capacity - known.length := by
      rw [List.length_append, List.length_singleton]
      omega
    rw [List.take_of_length_le hfits,
      List.take_of_length_le (Nat.le_trans (by simp) hfits), List.append_assoc]
  · rw [List.take_append_of_le_length (by omega)]

/-- Recording in two goes. -/
theorem recordSites_append (capacity : Nat) (known sites sites' : List CallSite) :
    recordSites capacity (recordSites capacity known sites) sites' =
      recordSites capacity known (sites ++ sites') := by
  unfold recordSites
  rw [List.take_append, List.append_assoc, List.length_append, List.length_take]
  by_cases hroom : sites.length ≤ capacity - known.length
  · rw [Nat.min_eq_right hroom, Nat.sub_add_eq]
  · rw [show capacity - (known.length + min (capacity - known.length) sites.length) = 0 by omega,
      show capacity - known.length - sites.length = 0 by omega]

/-! ## The invariant of the second pass -/

/-- What is written from `code` on stays there, and its call sites are recorded. -/
structure Progress (code : Ptr) (items : List Item) (ctx₀ : JITContext) (mem₀ : Mem)
    (ctx : JITContext) (mem : Mem) : Prop where
  sites : ctx.callSites =
    recordSites ctx₀.callSiteCapacity ctx₀.callSites (sitesOf code (layout 0 items))
  capacity : ctx.callSiteCapacity = ctx₀.callSiteCapacity
  patches : ∀ p ∈ ctx.patches, ∃ d, p.loc = at' code d ∧ d + 4 ≤ itemsSize items
  outside : ∀ x, itemsSize items ≤ (x - code).toNat → mem x = mem₀ x

section

variable {code : Ptr} {items : List Item} {ctx₀ ctx ctx' : JITContext} {mem₀ mem mem' : Mem}

theorem Progress.frame (h : Progress code items ctx₀ mem₀ ctx mem)
    (hsites : ctx'.callSites = ctx.callSites)
    (hcapacity : ctx'.callSiteCapacity = ctx.callSiteCapacity)
    (hpatches : ctx'.patches = ctx.patches) : Progress code items ctx₀ mem₀ ctx' mem where
  sites := hsites.trans h.sites
  capacity := hcapacity.trans h.capacity
  patches := hpatches ▸ h.patches
  outside := h.outside

/-- Bytes behind the items are outside every address that is outside of all. -/
theorem writeBytes_behind {bs : List Byte} {d n : Nat} {x : Ptr} (hd : d + bs.length ≤ n)
    (hx : n ≤ (x - code).toNat) : writeBytes mem (at' code d) bs x = mem x := by
  refine writeBytes_outside _ _ _ _ ?_
  unfold at'
  have := (x - code).isLt
  bv_omega

/-- A jump that is patched lies inside. -/
theorem patches_outside {target : Ptr} {ps : List Patch} {n : Nat} {x : Ptr}
    (h : ∀ p ∈ ps, ∃ d, p.loc = at' code d ∧ d + 4 ≤ n) (hx : n ≤ (x - code).toNat) :
    ps.foldl (patchOne target) mem x = mem x := by
  induction ps generalizing mem with
  | nil => rfl
  | cons p ps ih =>
    obtain ⟨d, hloc, hd⟩ := h p (by simp)
    rw [List.foldl_cons, ih fun p' hp' => h p' (by simp [hp'])]
    unfold patchOne patchJumpOffset
    rw [hloc]
    exact writeBytes_behind (by simpa using hd) hx

theorem sitesOf_snoc (item : Item) : sitesOf code (layout 0 (items ++ [item])) =
    sitesOf code (layout 0 items) ++ sitesOf code [(itemsSize items, item)] := by
  unfold sitesOf
  rw [layout_append, List.filterMap_append, Nat.zero_add]
  rfl

/-- One item more. -/
theorem emitItem_progress {item : Item} {buf : Ptr} (size : Nat) (hbuf : buf ≠ 0)
    (h : Progress code items ctx₀ mem₀ ctx mem) (hcode : code ≠ 0)
    (hfits : code.toNat + (itemsSize items + item.size) < 2 ^ 64) :
    Progress code (items ++ [item]) ctx₀ mem₀
        (emitItem buf item ⟨ctx, ⟨at' code (itemsSize items), size, mem⟩⟩).ctx
        (emitItem buf item ⟨ctx, ⟨at' code (itemsSize items), size, mem⟩⟩).out.mem ∧
      (emitItem buf item ⟨ctx, ⟨at' code (itemsSize items), size, mem⟩⟩).out.curr =
        at' code (itemsSize items + item.size) := by
  have hsize : itemsSize (items ++ [item]) = itemsSize items + item.size := by simp
  have hold : ∀ {x}, itemsSize items + item.size ≤ (x - code).toNat → mem x = mem₀ x :=
    fun hx => h.outside _ (by omega)
  have hpatches : ∀ p ∈ ctx.patches, ∃ d, p.loc = at' code d ∧
      d + 4 ≤ itemsSize items + item.size := by
    intro p hp
    obtain ⟨d, hloc, hd⟩ := h.patches p hp
    exact ⟨d, hloc, by omega⟩
  cases item with
  | code e =>
    have hbytes := @emitBytes_at code e.bytes (itemsSize items) size mem hcode hfits
    simp only [emitItem, hbytes]
    refine ⟨⟨?_, h.capacity, by rwa [hsize], fun x hx => ?_⟩, rfl⟩
    · rw [sitesOf_snoc, h.sites]
      simp [sitesOf]
    · rw [hsize] at hx
      exact (writeBytes_behind (Nat.le_refl _) hx).trans (hold hx)
  | label l =>
    simp only [emitItem]
    split
    · refine ⟨⟨?_, h.capacity, by rwa [hsize], fun x hx => hold (by rwa [hsize] at hx)⟩, rfl⟩
      rw [sitesOf_snoc, h.sites]
      simp [sitesOf]
    · rw [resolvePatches_eq]
      refine ⟨⟨?_, h.capacity, fun p hp => ?_, fun x hx => ?_⟩, rfl⟩
      · rw [sitesOf_snoc, h.sites]
        simp [sitesOf]
      · rw [hsize]
        exact hpatches p (List.mem_filter.mp hp).1
      · rw [hsize] at hx
        refine Eq.trans ?_ (hold hx)
        exact patches_outside (fun p hp => hpatches p (List.mem_filter.mp hp).1) hx
  | callSite name =>
    have hfits' : code.toNat + (itemsSize items +
        (callSiteOpcode ++ leBytes 8 callPlaceholder.toNat).length) < 2 ^ 64 := by
      simpa [Item.size] using hfits
    have hbytes := @emitBytes_at code (callSiteOpcode ++ leBytes 8 callPlaceholder.toNat)
      (itemsSize items) size mem hcode hfits'
    rw [emitBytes_append] at hbytes
    have hafter : (emitBytes callSiteOpcode ⟨at' code (itemsSize items), size, mem⟩).curr =
        at' code (itemsSize items + callSiteOpcode.length) := by
      rw [emitBytes_at hcode (by simp only [List.length_append] at hfits'; omega)]
    simp only [emitItem, hafter, hbytes]
    refine ⟨⟨?_, h.capacity, by rwa [hsize], fun x hx => ?_⟩, by simp [Item.size]⟩
    · rw [sitesOf_snoc, show sitesOf code [(itemsSize items, Item.callSite name)] =
        [⟨at' code (itemsSize items + callSiteOpcode.length), name⟩] from rfl, recordSites_snoc,
        ← h.sites, ← h.capacity]
      simp only [ne_eq, hbuf, not_false_eq_true, true_and]
    · rw [hsize] at hx
      refine (writeBytes_behind ?_ hx).trans (hold hx)
      simp [Item.size]
  | jump c l =>
    have hcurr : at' code (itemsSize items) ≠ 0 := at'_ne_zero hcode (by omega)
    simp only [Item.size] at hfits hsize hold hpatches
    -- the displacement, whatever it is
    have hdisp : ∀ bs : List Byte, bs.length = 4 →
        emitBytes bs (emitBytes (jumpOpcode c) ⟨at' code (itemsSize items), size, mem⟩) =
          ⟨at' code (itemsSize items + ((jumpOpcode c).length + 4)),
            size + ((jumpOpcode c).length + 4),
            writeBytes mem (at' code (itemsSize items)) (jumpOpcode c ++ bs)⟩ := by
      intro bs hbs
      rw [← emitBytes_append, emitBytes_at hcode (by simp only [List.length_append, hbs]; omega)]
      simp [hbs]
    have hafter : (emitBytes (jumpOpcode c) ⟨at' code (itemsSize items), size, mem⟩).curr =
        at' code (dispOffset (itemsSize items) c) := by
      rw [emitBytes_at hcode (by omega)]
    have hsites : ctx.callSites = recordSites ctx₀.callSiteCapacity ctx₀.callSites
        (sitesOf code (layout 0 (items ++ [Item.jump c l]))) := by
      rw [sitesOf_snoc, h.sites]
      simp [sitesOf]
    have hwrite : ∀ bs : List Byte, bs.length = 4 → ∀ x,
        itemsSize (items ++ [Item.jump c l]) ≤ (x - code).toNat →
        writeBytes mem (at' code (itemsSize items)) (jumpOpcode c ++ bs) x = mem₀ x := by
      intro bs hbs x hx
      rw [hsize] at hx
      refine (writeBytes_behind ?_ hx).trans (hold hx)
      rw [List.length_append, hbs]
    simp only [emitItem, hcurr, if_false, hafter, hdisp _ (leBytes_length _ _)]
    split
    · exact ⟨⟨hsites, h.capacity, by rwa [hsize], hwrite _ (leBytes_length _ _)⟩, rfl⟩
    · refine ⟨⟨hsites, h.capacity, fun p hp => ?_, hwrite _ (leBytes_length _ _)⟩, rfl⟩
      rw [hsize]
      rcases List.mem_cons.mp hp with rfl | hp
      · exact ⟨_, rfl, by simp only [dispOffset]; omega⟩
      · exact hpatches p hp

theorem emitItems_progress {buf : Ptr} (more : List Item) (size : Nat) (hbuf : buf ≠ 0)
    (h : Progress code items ctx₀ mem₀ ctx mem) (hcode : code ≠ 0)
    (hfits : code.toNat + (itemsSize items + itemsSize more) < 2 ^ 64) :
    Progress code (items ++ more) ctx₀ mem₀
      (emitItems buf more ⟨ctx, ⟨at' code (itemsSize items), size, mem⟩⟩).ctx
      (emitItems buf more ⟨ctx, ⟨at' code (itemsSize items), size, mem⟩⟩).out.mem := by
  induction more generalizing items ctx mem size with
  | nil => simpa using h
  | cons item more ih =>
    rw [itemsSize_cons] at hfits
    have hone : code.toNat + (itemsSize items + item.size) < 2 ^ 64 := by omega
    obtain ⟨hitem, hcurr⟩ := emitItem_progress size hbuf h hcode hone
    rw [emitItems_cons]
    generalize emitItem buf item ⟨ctx, ⟨at' code (itemsSize items), size, mem⟩⟩ = a at hitem hcurr
    obtain ⟨ctx', curr, size', mem'⟩ := a
    obtain rfl : curr = at' code (itemsSize (items ++ [item])) := by
      rw [itemsSize_append, itemsSize_cons, itemsSize_nil, Nat.add_zero]
      exact hcurr
    have hrest := ih size' hitem (by simp; omega)
    simpa using hrest

/-- One instruction more. -/
theorem planned_progress {s : JITState} (inst : IRInstruction)
    (h : Progress code items ctx₀ mem₀ s.ctx s.mem) (hcode : code ≠ 0)
    (hfits : code.toNat + (itemsSize items + s.ctx.sizeOf inst) < 2 ^ 64) :
    Progress code (items ++ itemsOf (s.ctx.after inst).vregMap s.ctx.pendingCall inst) ctx₀ mem₀
      (planned (at' code (itemsSize items)) inst s).2.ctx
      (planned (at' code (itemsSize items)) inst s).2.mem := by
  have hrest := s.ctx.touchAll_rest (touched s.ctx.pendingCall inst)
  have hstart : Progress code items ctx₀ mem₀
      (s.ctx.touchAll (touched s.ctx.pendingCall inst)) s.mem :=
    h.frame hrest.callSites hrest.callSiteCapacity hrest.patches
  have hbuf : at' code (itemsSize items) ≠ 0 := at'_ne_zero hcode (by omega)
  have hitems := emitItems_progress
    (itemsOf (s.ctx.after inst).vregMap s.ctx.pendingCall inst) 0 hbuf hstart hcode hfits
  exact hitems.frame rfl rfl rfl

/-- The instructions of a run of the second pass. -/
theorem writeState_progress (insts : List IRInstruction) {s : JITState}
    (h : Progress code items ctx₀ mem₀ s.ctx s.mem) (hcode : code ≠ 0)
    (hfits : code.toNat + (itemsSize items + s.ctx.sizeOfAll insts) < 2 ^ 64) :
    Progress code (items ++ s.ctx.planItems insts) ctx₀ mem₀
      (writeState (at' code (itemsSize items)) insts s).ctx
      (writeState (at' code (itemsSize items)) insts s).mem := by
  induction insts generalizing items s with
  | nil => simpa [JITContext.planItems, writeState] using h
  | cons inst insts ih =>
    simp only [JITContext.sizeOfAll] at hfits
    have hplan := planned_samePlan (at' code (itemsSize items)) inst s
    have hinst := planned_progress inst h hcode (by omega)
    have hsize : itemsSize (itemsOf (s.ctx.after inst).vregMap s.ctx.pendingCall inst) =
        s.ctx.sizeOf inst := rfl
    have hsizes := JITContext.sizeOfAll_congr hplan insts
    have hrest := ih hinst (by rw [itemsSize_append, hsize, hsizes]; omega)
    rw [hplan.planItems, itemsSize_append, hsize] at hrest
    rw [JITContext.planItems, writeState, planned_size, add_ofNat_add, ← List.append_assoc]
    exact hrest

end

/-! ## Functions -/

/-- After both passes the call sites of the function are recorded, and the memory outside its
buffer is what it was. -/
theorem compiledState_progress {f : IRFunction} {p : Nat} {code : Ptr} {s : JITState}
    (hbuf : Buffer code (functionSize s.ctx f p)) :
    Progress code (functionItems s.ctx f p) s.ctx s.mem (compiledState code f p s).ctx
      (compiledState code f p s).mem := by
  obtain ⟨hcode, hfits⟩ := hbuf
  have hsize : functionSize s.ctx f p = (bytesOf (prologueOf s.ctx f p)).length +
    (s.ctx.entered f p).sizeOfAll f.instructions := rfl
  have hrest := (s.ctx.fresh f.stackCount).touchAll_rest (List.range' 1 p)
  have hpatches : (s.ctx.entered f p).patches = [] := hrest.patches
  have hsites : (s.ctx.entered f p).callSites = s.ctx.callSites := hrest.callSites
  have hfresh : Progress code [] s.ctx s.mem (s.ctx.entered f p) s.mem := by
    refine ⟨?_, hrest.callSiteCapacity, by simp [hpatches], fun _ _ => rfl⟩
    rw [hsites]
    exact (recordSites_nil _ _).symm
  have hprologue := emitItems_progress ((prologueOf s.ctx f p).map .code) 0 hcode hfresh hcode
    (by rw [itemsSize_code, itemsSize_nil]; omega)
  rw [emitItems_code, List.nil_append] at hprologue
  have hstart : at' code (itemsSize []) = code := by simp [at']
  rw [hstart] at hprologue
  have hbody := writeState_progress f.instructions (s := enteredState code f p s) hprologue hcode
    (by rw [itemsSize_code]; exact hfits)
  rw [itemsSize_code] at hbody
  exact hbody

end TinyCompile.Jit
