import TinyCompile.Jit.Context

set_option autoImplicit false

/-!
# Jit: what the register allocator does

A location, once assigned, stays; distinct virtual registers get distinct
registers, and spilled ones the slot of their own number.
-/

namespace TinyCompile.Jit

open TinyCompile.Machine TinyCompile.X86 TinyCompile.Source TinyCompile.Ir

/-! ## `get_location` on the context -/

/-- The context after `get_location`. -/
def JITContext.touch (ctx : JITContext) (vreg : Nat) : JITContext :=
  let found := allocate ctx.stackBase ctx.vregMap ctx.physRegs vreg
  { ctx with vregMap := found.2.1, physRegs := found.2.2 }

/-- The context after `get_location` on several virtual registers. -/
def JITContext.touchAll (ctx : JITContext) (vregs : List Nat) : JITContext :=
  vregs.foldl JITContext.touch ctx

@[simp] theorem JITContext.touchAll_nil (ctx : JITContext) : ctx.touchAll [] = ctx := rfl

@[simp] theorem JITContext.touchAll_cons (ctx : JITContext) (v : Nat) (vs : List Nat) :
    ctx.touchAll (v :: vs) = (ctx.touch v).touchAll vs := rfl

theorem JITContext.touchAll_append (ctx : JITContext) (vs ws : List Nat) :
    ctx.touchAll (vs ++ ws) = (ctx.touchAll vs).touchAll ws := by
  simp [JITContext.touchAll]

theorem allocate_location (stackBase : Nat) (vregMap : Nat → Location) (physRegs : Reg → Bool)
    (vreg : Nat) :
    (allocate stackBase vregMap physRegs vreg).2.1 vreg =
      (allocate stackBase vregMap physRegs vreg).1 := by
  unfold allocate
  split
  · rfl
  · split <;> simp

theorem allocate_other (stackBase : Nat) (vregMap : Nat → Location) (physRegs : Reg → Bool)
    {vreg w : Nat} (h : w ≠ vreg) :
    (allocate stackBase vregMap physRegs vreg).2.1 w = vregMap w := by
  unfold allocate
  split
  · rfl
  · split <;> simp [Function.update_of_ne h]

/-- `get_location` in range: the location is that of the new context. -/
theorem getLocation_bind {α : Type} {vreg : Nat} (h : vreg < maxVregsPerFunction)
    (k : Location → JitM α) (s : JITState) :
    (getLocation vreg >>= k) s =
      k ((s.ctx.touch vreg).vregMap vreg) { s with ctx := s.ctx.touch vreg } := by
  have hloc := allocate_location s.ctx.stackBase s.ctx.vregMap s.ctx.physRegs vreg
  have hle : ¬ vreg ≥ maxVregsPerFunction := by omega
  simp only [getLocation, hle, if_false, JITContext.touch, hloc]
  rfl

/-! ## Assigned locations stay -/

theorem JITContext.touch_ne_none (ctx : JITContext) (v : Nat) :
    (ctx.touch v).vregMap v ≠ .none := by
  simp only [touch, allocate]
  split
  · assumption
  · split <;> simp

theorem JITContext.touch_other (ctx : JITContext) {v w : Nat} (h : w ≠ v) :
    (ctx.touch v).vregMap w = ctx.vregMap w :=
  allocate_other _ _ _ h

theorem JITContext.touch_assigned (ctx : JITContext) {v w : Nat} (h : ctx.vregMap w ≠ .none) :
    (ctx.touch v).vregMap w = ctx.vregMap w := by
  by_cases hw : w = v
  · subst hw
    simp [touch, allocate, h]
  · exact ctx.touch_other hw

theorem JITContext.touchAll_assigned (ctx : JITContext) (vs : List Nat) {w : Nat}
    (h : ctx.vregMap w ≠ .none) : (ctx.touchAll vs).vregMap w = ctx.vregMap w := by
  induction vs generalizing ctx with
  | nil => rfl
  | cons v vs ih =>
    have hv := ctx.touch_assigned (v := v) h
    rw [touchAll_cons, ih _ (by rwa [hv]), hv]

/-- What `get_location` returned is what the context keeps. -/
theorem JITContext.touchAll_touched (ctx : JITContext) (v : Nat) (vs : List Nat) :
    ((ctx.touch v).touchAll vs).vregMap v = (ctx.touch v).vregMap v :=
  (ctx.touch v).touchAll_assigned vs (ctx.touch_ne_none v)

theorem JITContext.touchAll_other (ctx : JITContext) (vs : List Nat) {w : Nat} (h : w ∉ vs) :
    (ctx.touchAll vs).vregMap w = ctx.vregMap w := by
  induction vs generalizing ctx with
  | nil => rfl
  | cons v vs ih =>
    rw [touchAll_cons, ih _ (fun hmem => h (List.mem_cons_of_mem _ hmem)),
      touch_other _ (fun heq => h (by simp [heq]))]

theorem JITContext.touchAll_ne_none (ctx : JITContext) (vs : List Nat) {v : Nat} (h : v ∈ vs) :
    (ctx.touchAll vs).vregMap v ≠ .none := by
  induction vs generalizing ctx with
  | nil => cases h
  | cons w vs ih =>
    rcases List.mem_cons.mp h with rfl | h
    · rw [touchAll_cons, touchAll_touched]
      exact ctx.touch_ne_none v
    · exact ih _ h

/-- The fields the allocator does not use. -/
structure JITContext.SameRest (ctx ctx' : JITContext) : Prop where
  registry : ctx'.registry = ctx.registry
  callSites : ctx'.callSites = ctx.callSites
  callSiteCapacity : ctx'.callSiteCapacity = ctx.callSiteCapacity
  pendingCall : ctx'.pendingCall = ctx.pendingCall
  labelOffset : ctx'.labelOffset = ctx.labelOffset
  labelDefined : ctx'.labelDefined = ctx.labelDefined
  patches : ctx'.patches = ctx.patches
  stackBase : ctx'.stackBase = ctx.stackBase

theorem JITContext.touchAll_rest (ctx : JITContext) (vs : List Nat) :
    ctx.SameRest (ctx.touchAll vs) := by
  induction vs generalizing ctx with
  | nil => exact ⟨rfl, rfl, rfl, rfl, rfl, rfl, rfl, rfl⟩
  | cons v vs ih =>
    obtain ⟨h1, h2, h3, h4, h5, h6, h7, h8⟩ := ih (ctx.touch v)
    exact ⟨h1, h2, h3, h4, h5, h6, h7, h8⟩

@[simp] theorem JITContext.touchAll_pendingCall (ctx : JITContext) (vs : List Nat) :
    (ctx.touchAll vs).pendingCall = ctx.pendingCall :=
  (ctx.touchAll_rest vs).pendingCall

@[simp] theorem JITContext.touchAll_stackBase (ctx : JITContext) (vs : List Nat) :
    (ctx.touchAll vs).stackBase = ctx.stackBase :=
  (ctx.touchAll_rest vs).stackBase

/-! ## Which locations there are -/

/-- The allocator's invariant. -/
structure JITContext.Allocated (ctx : JITContext) : Prop where
  /-- Only callee-saved registers are handed out, and they are marked. -/
  reg : ∀ v r, ctx.vregMap v = .reg r → isAllocatableRegister r = true ∧ ctx.physRegs r = true
  /-- No register is handed out twice. -/
  unique : ∀ v w r, ctx.vregMap v = .reg r → ctx.vregMap w = .reg r → v = w
  /-- A spilled virtual register has the slot of its number. -/
  spill : ∀ v off, ctx.vregMap v = .stack off → off = spillOffset ctx.stackBase v
  /-- There are no constants among the locations. -/
  noConst : ∀ v c, ctx.vregMap v ≠ .const c

theorem update_cases {f : Nat → Location} {v w : Nat} {new l : Location}
    (h : Function.update f v new w = l) : (w = v ∧ l = new) ∨ f w = l := by
  by_cases hw : w = v
  · subst hw
    rw [Function.update_self] at h
    exact .inl ⟨rfl, h.symm⟩
  · rw [Function.update_of_ne hw] at h
    exact .inr h

/-- What `get_location` can do: nothing, spill with all registers taken, or take a free
register. -/
theorem JITContext.touch_cases (ctx : JITContext) (v : Nat) :
    ctx.touch v = ctx ∨
      ((∀ r, isAllocatableRegister r = true → ctx.physRegs r = true) ∧
        ctx.touch v = { ctx with
          vregMap := Function.update ctx.vregMap v (.stack (spillOffset ctx.stackBase v)) }) ∨
      ∃ i, isAllocatableRegister i = true ∧ ctx.physRegs i = false ∧
        ctx.touch v = { ctx with
          vregMap := Function.update ctx.vregMap v (.reg i)
          physRegs := Function.update ctx.physRegs i true } := by
  by_cases hv : ctx.vregMap v = .none
  · cases hfind : allRegisters.find? fun i => isAllocatableRegister i && !ctx.physRegs i with
    | none =>
      refine .inr (.inl ⟨fun r hr => ?_, by simp [JITContext.touch, allocate, hv, hfind]⟩)
      have hall : r ∈ allRegisters := by cases r <;> decide
      have := List.find?_eq_none.mp hfind r hall
      simpa [hr] using this
    | some i =>
      have hi := List.find?_some hfind
      simp only [Bool.and_eq_true, Bool.not_eq_true'] at hi
      exact .inr (.inr ⟨i, hi.1, hi.2, by simp [JITContext.touch, allocate, hv, hfind]⟩)
  · exact .inl (by simp [JITContext.touch, allocate, hv])

theorem JITContext.Allocated.touch {ctx : JITContext} (h : ctx.Allocated) (v : Nat) :
    (ctx.touch v).Allocated := by
  rcases ctx.touch_cases v with hsame | ⟨-, hmap⟩ | ⟨i, hi, hfree, hmap⟩
  · rwa [hsame]
  · rw [hmap]
    refine ⟨?_, ?_, ?_, ?_⟩
    · intro w r hw
      rcases update_cases hw with ⟨_, hl⟩ | hw'
      · cases hl
      · exact h.reg w r hw'
    · intro w w' r hw hw'
      rcases update_cases hw with ⟨_, hl⟩ | hw
      · cases hl
      rcases update_cases hw' with ⟨_, hl⟩ | hw'
      · cases hl
      exact h.unique w w' r hw hw'
    · intro w off hw
      rcases update_cases hw with ⟨rfl, hl⟩ | hw
      · cases hl
        rfl
      · exact h.spill w off hw
    · intro w c hw
      rcases update_cases hw with ⟨_, hl⟩ | hw
      · cases hl
      · exact h.noConst w c hw
  · rw [hmap]
    -- the register was free, so nothing else is in it
    have hunused : ∀ w, ctx.vregMap w ≠ .reg i := by
      intro w hw
      have := (h.reg w i hw).2
      rw [hfree] at this
      cases this
    refine ⟨?_, ?_, ?_, ?_⟩
    · intro w r hw
      rcases update_cases hw with ⟨_, hl⟩ | hw'
      · cases hl
        exact ⟨hi, Function.update_self _ _ _⟩
      · have hr := h.reg w r hw'
        refine ⟨hr.1, ?_⟩
        by_cases hri : r = i
        · subst hri
          exact Function.update_self _ _ _
        · exact (Function.update_of_ne hri _ _).trans hr.2
    · intro w w' r hw hw'
      rcases update_cases hw with ⟨rfl, hl⟩ | hold
      · cases hl
        rcases update_cases hw' with ⟨rfl, _⟩ | hold'
        · rfl
        · exact absurd hold' (hunused w')
      · rcases update_cases hw' with ⟨rfl, hl⟩ | hold'
        · cases hl
          exact absurd hold (hunused w)
        · exact h.unique w w' r hold hold'
    · intro w off hw
      rcases update_cases hw with ⟨_, hl⟩ | hw
      · cases hl
      · exact h.spill w off hw
    · intro w c hw
      rcases update_cases hw with ⟨_, hl⟩ | hw
      · cases hl
      · exact h.noConst w c hw

theorem JITContext.Allocated.touchAll {ctx : JITContext} (h : ctx.Allocated) (vs : List Nat) :
    (ctx.touchAll vs).Allocated := by
  induction vs generalizing ctx with
  | nil => exact h
  | cons v vs ih => exact ih (h.touch v)

end TinyCompile.Jit
