import TinyCompile.Jit.Frame

set_option autoImplicit false

/-!
# Jit: the slots of a frame

Spilled virtual registers and locals have slots of eight bytes below the saved registers,
at distances from `rbp` that two formulas compute.  Together they tile the frame.
-/

namespace TinyCompile.Jit

open TinyCompile.Machine TinyCompile.X86 TinyCompile.Source TinyCompile.Ir

/-! ## Distances from the frame pointer -/

/-- The distance of slot number `n`, counted from the saved registers and the pad down. -/
theorem toInt_slot {n : Nat} (h : n < 2 ^ 27) :
    (-(BitVec.ofNat 32 (48 + (n + 1) * 8))).toInt = -(48 + (n + 1) * 8 : Int) := by
  rw [BitVec.toInt_eq_toNat_cond, BitVec.toNat_neg, BitVec.toNat_ofNat]
  omega

theorem getLocalOffset_eq (idx : Nat) :
    getLocalOffset idx = -(BitVec.ofNat 32 (48 + (idx + 1) * 8)) := by
  simp only [getLocalOffset, calleeSavedSize, calleeSavedCount, wordSize, BitVec.ofNat_mul,
    BitVec.ofNat_add]
  rfl

theorem spillOffset_eq (stackBase v : Nat) :
    spillOffset stackBase v = getLocalOffset (stackBase + v) := by
  rw [getLocalOffset_eq]
  simp only [spillOffset, calleeSavedSize, calleeSavedCount, stackAlignment, BitVec.ofNat_mul,
    BitVec.ofNat_add, Nat.reduceMul, Nat.reduceAdd, Nat.reduceDiv]
  rfl

/-- A spilled register has the slot behind those of the locals. -/
theorem getLocalOffset_toInt {idx : Nat} (h : idx < 2 ^ 27) :
    (getLocalOffset idx).toInt = -(48 + (idx + 1) * 8 : Int) := by
  rw [getLocalOffset_eq, toInt_slot h]

theorem getLocalOffset_aligned (idx : Nat) : (getLocalOffset idx).toNat % 8 = 0 := by
  rw [getLocalOffset_eq, BitVec.toNat_neg, BitVec.toNat_ofNat]
  omega

/-- Two slots of eight bytes do not overlap. -/
def SlotsDisjoint (off off' : BitVec 32) : Prop :=
  off.toInt + 8 ≤ off'.toInt ∨ off'.toInt + 8 ≤ off.toInt

/-- A slot lies below the five words of the saved registers. -/
def BelowSaved (off : BitVec 32) : Prop := off.toInt + 8 ≤ -(calleeSavedSize : Int)

theorem getLocalOffset_below {idx : Nat} (h : idx < 2 ^ 27) : BelowSaved (getLocalOffset idx) := by
  unfold BelowSaved
  rw [getLocalOffset_toInt h]
  simp only [calleeSavedSize, calleeSavedCount]
  omega

theorem getLocalOffset_disjoint {i j : Nat} (hi : i < 2 ^ 27) (hj : j < 2 ^ 27) (hne : i ≠ j) :
    SlotsDisjoint (getLocalOffset i) (getLocalOffset j) := by
  unfold SlotsDisjoint
  rw [getLocalOffset_toInt hi, getLocalOffset_toInt hj]
  omega

/-! ## Where the allocator puts virtual registers -/

theorem fresh_allocated (ctx : JITContext) (stackBase : Nat) : (ctx.fresh stackBase).Allocated where
  reg := nofun
  unique := nofun
  spill := nofun
  noConst := nofun

/-- What the allocator hands out is usable. -/
theorem JITContext.Allocated.usable {ctx : JITContext} (h : ctx.Allocated) {v : Nat}
    (hv : ctx.vregMap v ≠ .none) : (ctx.vregMap v).Usable := by
  cases hloc : ctx.vregMap v with
  | none => exact absurd hloc hv
  | reg r => exact (h.reg v r hloc).1
  | stack off =>
    show off.toNat % 8 = 0
    rw [h.spill v off hloc, spillOffset_eq]
    exact getLocalOffset_aligned _
  | const imm => exact absurd hloc (h.noConst v imm)

/-! ## When the registers run out -/

/-- Registers are taken for a reason, and spilling means that none is left. -/
structure JITContext.Packed (ctx : JITContext) : Prop where
  held : ∀ r, ctx.physRegs r = true → ∃ v, ctx.vregMap v = .reg r
  full : ∀ v off, ctx.vregMap v = .stack off →
    ∀ r, isAllocatableRegister r = true → ctx.physRegs r = true

theorem fresh_packed (ctx : JITContext) (stackBase : Nat) : (ctx.fresh stackBase).Packed where
  held := nofun
  full := nofun

theorem JITContext.Packed.touch {ctx : JITContext} (h : ctx.Packed) {v : Nat}
    (hv : ctx.vregMap v = .none) : (ctx.touch v).Packed := by
  have hother : ∀ w l, ctx.vregMap w = l → l ≠ .none → w ≠ v := by
    rintro w l hw hl rfl
    exact hl (hw.symm.trans hv)
  rcases ctx.touch_cases v with hsame | ⟨hfull, hmap⟩ | ⟨i, hi, hfree, hmap⟩
  · rwa [hsame]
  · rw [hmap]
    refine ⟨fun r hr => ?_, fun _ _ _ r hr => hfull r hr⟩
    obtain ⟨w, hw⟩ := h.held r hr
    exact ⟨w, (Function.update_of_ne (hother w _ hw nofun) _ _).trans hw⟩
  · rw [hmap]
    refine ⟨fun r hr => ?_, fun w off hw r hr => ?_⟩
    · by_cases hri : r = i
      · subst hri
        exact ⟨v, Function.update_self _ _ _⟩
      · obtain ⟨w, hw⟩ := h.held r ((Function.update_of_ne hri _ _).symm.trans hr)
        exact ⟨w, (Function.update_of_ne (hother w _ hw nofun) _ _).trans hw⟩
    · rcases update_cases hw with ⟨_, hl⟩ | hold
      · cases hl
      · -- a spill before would have found the register taken
        have := h.full w off hold i hi
        rw [hfree] at this
        cases this

theorem JITContext.Packed.touchAll {ctx : JITContext} (h : ctx.Packed) (vs : List Nat) :
    (ctx.touchAll vs).Packed := by
  induction vs generalizing ctx with
  | nil => exact h
  | cons v vs ih =>
    by_cases hv : ctx.vregMap v = .none
    · exact ih (h.touch hv)
    · have hsame : ctx.touch v = ctx := by
        simp [JITContext.touch, allocate, hv]
      rw [touchAll_cons, hsame]
      exact ih h

/-- Five virtual registers fit into registers. -/
theorem not_spilled {ctx : JITContext} {stackBase : Nat} {vs : List Nat}
    (hvs : ∀ v ∈ vs, 1 ≤ v ∧ v < 6) (v : Nat) (off : BitVec 32) :
    ((ctx.fresh stackBase).touchAll vs).vregMap v ≠ .stack off := by
  intro hv
  have hpacked := (fresh_packed ctx stackBase).touchAll vs
  have hin : ∀ w l, ((ctx.fresh stackBase).touchAll vs).vregMap w = l → l ≠ .none →
      1 ≤ w ∧ w < 6 := by
    intro w l hw hl
    by_cases hmem : w ∈ vs
    · exact hvs w hmem
    · rw [JITContext.touchAll_other _ _ hmem] at hw
      exact absurd hw.symm hl
  have hheld : ∀ r, isAllocatableRegister r = true →
      ∃ w, ((ctx.fresh stackBase).touchAll vs).vregMap w = .reg r :=
    fun r hr => hpacked.held r (hpacked.full v off hv r hr)
  obtain ⟨a, ha⟩ := hheld .rbx (by decide)
  obtain ⟨b, hb⟩ := hheld .r12 (by decide)
  obtain ⟨c, hc⟩ := hheld .r13 (by decide)
  obtain ⟨d, hd⟩ := hheld .r14 (by decide)
  obtain ⟨e, he⟩ := hheld .r15 (by decide)
  -- six different virtual registers between one and five
  have hmap : [v, a, b, c, d, e].map ((ctx.fresh stackBase).touchAll vs).vregMap =
      [.stack off, .reg .rbx, .reg .r12, .reg .r13, .reg .r14, .reg .r15] := by
    simp only [List.map_cons, List.map_nil, hv, ha, hb, hc, hd, he]
  have hnodup : [v, a, b, c, d, e].Nodup := by
    apply List.Nodup.of_map ((ctx.fresh stackBase).touchAll vs).vregMap
    rw [hmap]
    simp
  have hsub : ∀ w ∈ [v, a, b, c, d, e], w ∈ List.range' 1 5 := by
    intro w hw
    have hloc := List.mem_map_of_mem (f := ((ctx.fresh stackBase).touchAll vs).vregMap) hw
    rw [hmap] at hloc
    have hw' := hin w _ rfl fun hnone => by
      rw [hnone] at hloc
      simp at hloc
    rw [List.mem_range'_1]
    omega
  have hle := (hnodup.subperm hsub).length_le
  simp at hle

/-- After five others a virtual register is spilled. -/
theorem spilled_sixth (ctx : JITContext) (stackBase : Nat) {v : Nat} (hv : 6 ≤ v) :
    ((ctx.fresh stackBase).touchAll [1, 2, 3, 4, 5, v]).vregMap v =
      .stack (spillOffset stackBase v) := by
  have hsplit : (ctx.fresh stackBase).touchAll [1, 2, 3, 4, 5, v] =
      ((ctx.fresh stackBase).touchAll [1, 2, 3, 4, 5]).touch v := rfl
  have hnone : ((ctx.fresh stackBase).touchAll [1, 2, 3, 4, 5]).vregMap v = .none :=
    JITContext.touchAll_other _ _ (by simp; omega)
  have hfull : ∀ r, isAllocatableRegister r = true →
      ((ctx.fresh stackBase).touchAll [1, 2, 3, 4, 5]).physRegs r = true := by
    intro r hr
    cases r <;> first | exact absurd hr Bool.false_ne_true | rfl
  have hbase : ((ctx.fresh stackBase).touchAll [1, 2, 3, 4, 5]).stackBase = stackBase :=
    JITContext.touchAll_stackBase _ _
  rw [hsplit]
  generalize (ctx.fresh stackBase).touchAll [1, 2, 3, 4, 5] = ctx' at hnone hfull hbase
  rcases ctx'.touch_cases v with hsame | ⟨-, hmap⟩ | ⟨i, hi, hfree, -⟩
  · rw [← hsame] at hnone
    exact absurd hnone (ctx'.touch_ne_none v)
  · rw [hmap, hbase]
    exact Function.update_self v _ ctx'.vregMap
  · rw [hfull i hi] at hfree
    cases hfree

/-- `get_location` on several virtual registers, in order. -/
def getLocations : List Nat → JitM (List Location)
  | [] => return []
  | v :: vs => do
      let loc ← getLocation v
      let locs ← getLocations vs
      return loc :: locs

/-- Every call returns what the table holds in the end. -/
theorem getLocations_eq {vs : List Nat} (hvs : ∀ v ∈ vs, v < maxVregsPerFunction)
    (s : JITState) :
    getLocations vs s =
      some (vs.map (s.ctx.touchAll vs).vregMap, { s with ctx := s.ctx.touchAll vs }) := by
  induction vs generalizing s with
  | nil => rfl
  | cons v vs ih =>
    have hv := hvs v (by simp)
    have hrest := ih (fun w hw => hvs w (List.mem_cons_of_mem _ hw))
      { s with ctx := s.ctx.touch v }
    have hkept := s.ctx.touchAll_touched v vs
    rw [getLocations, getLocation_bind hv]
    simp only [bind, StateT.bind, hrest]
    rw [List.map_cons, JITContext.touchAll_cons, hkept]
    rfl

/-- The registers a location must not be in: the scratch registers, the stack and frame
pointers and those that carry arguments. -/
def Reserved (r : Reg) : Prop :=
  r ∈ [Reg.rax, .rcx, .rdx, .rsp, .rbp] ∨ r ∈ argRegisters.take sysVMaxRegArgs

theorem allocatable_not_reserved {r : Reg} (h : isAllocatableRegister r = true) :
    ¬ Reserved r := by
  unfold Reserved
  cases r <;> first | decide | exact absurd h (by decide)

/-- A location is a register that is not reserved, or a slot that touches neither the
saved registers nor the slots of the locals. -/
def WellPlaced (stackCount : Nat) : Location → Prop
  | .reg r => ¬ Reserved r
  | .stack off => BelowSaved off ∧ ∀ idx < stackCount, SlotsDisjoint off (getLocalOffset idx)
  | _ => False

/-- What the allocator hands out is well placed. -/
theorem JITContext.Allocated.wellPlaced {ctx : JITContext} (h : ctx.Allocated)
    (hbase : ctx.stackBase ≤ maxIrInstructionsPerFunction) {v : Nat} (hv : v < maxVregsPerFunction)
    (hne : ctx.vregMap v ≠ .none) : WellPlaced ctx.stackBase (ctx.vregMap v) := by
  have hmax : maxIrInstructionsPerFunction = 65536 := rfl
  have hmax' : maxVregsPerFunction = 65536 := rfl
  have husable := h.usable hne
  cases hloc : ctx.vregMap v with
  | reg r => exact allocatable_not_reserved (h.reg v r hloc).1
  | stack off =>
    rw [h.spill v off hloc, spillOffset_eq]
    exact ⟨getLocalOffset_below (by omega),
      fun idx hidx => getLocalOffset_disjoint (by omega) (by omega) (by omega)⟩
  | const imm =>
    rw [hloc] at husable
    exact husable
  | none =>
    rw [hloc] at husable
    exact husable

/-- What the allocator hands out is no slot of a local. -/
theorem JITContext.Allocated.ne_local {ctx : JITContext} (h : ctx.Allocated)
    (hbase : ctx.stackBase ≤ maxIrInstructionsPerFunction) {v : Nat} (hv : v < maxVregsPerFunction)
    {i : Nat} (hi : i < ctx.stackBase) : ctx.vregMap v ≠ .stack (getLocalOffset i) := by
  have hmax : maxIrInstructionsPerFunction = 65536 := rfl
  have hmax' : maxVregsPerFunction = 65536 := rfl
  intro hloc
  have hslot := congrArg BitVec.toInt (h.spill v _ hloc)
  rw [spillOffset_eq, getLocalOffset_toInt (by omega), getLocalOffset_toInt (by omega)] at hslot
  omega

/-- Different virtual registers have different locations. -/
theorem JITContext.Allocated.inj {ctx : JITContext} (h : ctx.Allocated)
    (hbase : ctx.stackBase ≤ maxIrInstructionsPerFunction) {v w : Nat}
    (hv : v < maxVregsPerFunction) (hw : w < maxVregsPerFunction) (hne : ctx.vregMap v ≠ .none)
    (heq : ctx.vregMap v = ctx.vregMap w) : v = w := by
  have hmax : maxIrInstructionsPerFunction = 65536 := rfl
  have hmax' : maxVregsPerFunction = 65536 := rfl
  cases hloc : ctx.vregMap v with
  | none => exact absurd hloc hne
  | const imm => exact absurd hloc (h.noConst v imm)
  | reg r => exact h.unique v w r hloc (heq ▸ hloc)
  | stack off =>
    have hslot : spillOffset ctx.stackBase v = spillOffset ctx.stackBase w :=
      (h.spill v off hloc).symm.trans (h.spill w off (heq ▸ hloc))
    rw [spillOffset_eq, spillOffset_eq] at hslot
    have hint := congrArg BitVec.toInt hslot
    rw [getLocalOffset_toInt (by omega), getLocalOffset_toInt (by omega)] at hint
    omega

/-- Two locations do not share a byte. -/
def LocationsDisjoint : Location → Location → Prop
  | .reg r, .reg r' => r ≠ r'
  | .stack off, .stack off' => SlotsDisjoint off off'
  | _, _ => True

/-- Whatever the order in which the virtual registers of a function are located, distinct
ones get disjoint locations, none of which is reserved or overlaps a local or the saved
registers, and each call returns the location the virtual register keeps. -/
theorem locations_disjoint {f : IRFunction}
    (hstack : f.stackCount ≤ maxIrInstructionsPerFunction)
    (hvreg : f.vregCount ≤ maxIrInstructionsPerFunction) (ctx : JITContext) (mem : Mem)
    {vs : List Nat} (hvs : ∀ v ∈ vs, v < f.vregCount) :
    ∃ s', getLocations vs ⟨ctx.fresh f.stackCount, mem⟩ = some (vs.map s'.ctx.vregMap, s') ∧
      (∀ v ∈ vs, WellPlaced f.stackCount (s'.ctx.vregMap v)) ∧
      (∀ v ∈ vs, ∀ w ∈ vs, v ≠ w →
        LocationsDisjoint (s'.ctx.vregMap v) (s'.ctx.vregMap w)) ∧
      ∀ pre post, vs = pre ++ post → ∃ s₁,
        getLocations pre ⟨ctx.fresh f.stackCount, mem⟩ = some (pre.map s₁.ctx.vregMap, s₁) ∧
        ∀ v ∈ pre, s₁.ctx.vregMap v = s'.ctx.vregMap v := by
  have hrange : ∀ v ∈ vs, v < maxVregsPerFunction := fun v hv =>
    Nat.lt_of_lt_of_le (hvs v hv) hvreg
  have hmax : maxIrInstructionsPerFunction = 65536 := rfl
  have halloc := (fresh_allocated ctx f.stackCount).touchAll vs
  have hbase : ((ctx.fresh f.stackCount).touchAll vs).stackBase = f.stackCount :=
    JITContext.touchAll_stackBase _ _
  have hspill : ∀ v off, ((ctx.fresh f.stackCount).touchAll vs).vregMap v = .stack off →
      off = getLocalOffset (f.stackCount + v) := by
    intro v off hoff
    rw [halloc.spill v off hoff, hbase, spillOffset_eq]
  refine ⟨⟨(ctx.fresh f.stackCount).touchAll vs, mem⟩,
    getLocations_eq hrange ⟨ctx.fresh f.stackCount, mem⟩, ?_, ?_, ?_⟩
  · intro v hv
    have hne := JITContext.touchAll_ne_none (ctx.fresh f.stackCount) vs hv
    have hplaced := halloc.wellPlaced (by rwa [hbase]) (hrange v hv) hne
    rwa [hbase] at hplaced
  · intro v hv w hw hne
    have hv' := hvs v hv
    have hw' := hvs w hw
    show LocationsDisjoint (((ctx.fresh f.stackCount).touchAll vs).vregMap v)
      (((ctx.fresh f.stackCount).touchAll vs).vregMap w)
    cases hloc : ((ctx.fresh f.stackCount).touchAll vs).vregMap v with
    | reg r =>
      cases hloc' : ((ctx.fresh f.stackCount).touchAll vs).vregMap w with
      | reg r' =>
        rintro rfl
        exact hne (halloc.unique v w r hloc hloc')
      | _ => trivial
    | stack off =>
      cases hloc' : ((ctx.fresh f.stackCount).touchAll vs).vregMap w with
      | stack off' =>
        show SlotsDisjoint off off'
        rw [hspill v off hloc, hspill w off' hloc']
        exact getLocalOffset_disjoint (by omega) (by omega) (by omega)
      | _ => trivial
    | _ => trivial
  · intro pre post hsplit
    have hpre : ∀ v ∈ pre, v < maxVregsPerFunction := fun v hv =>
      hrange v (by rw [hsplit]; exact List.mem_append_left _ hv)
    refine ⟨⟨(ctx.fresh f.stackCount).touchAll pre, mem⟩,
      getLocations_eq hpre ⟨ctx.fresh f.stackCount, mem⟩, fun v hv => ?_⟩
    show ((ctx.fresh f.stackCount).touchAll pre).vregMap v =
      ((ctx.fresh f.stackCount).touchAll vs).vregMap v
    have hassigned := JITContext.touchAll_ne_none (ctx.fresh f.stackCount) pre hv
    rw [hsplit, JITContext.touchAll_append, JITContext.touchAll_assigned _ _ hassigned]

theorem locations_disjoint_three :
    ∃ s', getLocations [2, 1, 2] ⟨jitCtxInit.fresh 1, fun _ => 0⟩ =
        some ([2, 1, 2].map s'.ctx.vregMap, s') ∧
      (∀ v ∈ [2, 1, 2], WellPlaced 1 (s'.ctx.vregMap v)) ∧
      ∀ v ∈ [2, 1, 2], ∀ w ∈ [2, 1, 2], v ≠ w →
        LocationsDisjoint (s'.ctx.vregMap v) (s'.ctx.vregMap w) := by
  obtain ⟨s', hrun, hplaced, hdisjoint, -⟩ :=
    locations_disjoint (f := { IRFunction.zeroed with stackCount := 1, vregCount := 3 })
      (by decide) (by decide) jitCtxInit (fun _ => 0)
      (show ∀ v ∈ [2, 1, 2], v < 3 by decide)
  exact ⟨s', hrun, hplaced, hdisjoint⟩

end TinyCompile.Jit
