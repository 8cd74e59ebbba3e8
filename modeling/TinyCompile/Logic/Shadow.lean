import TinyCompile.Logic.Iterate

set_option autoImplicit false

/-!
# Logic: a program and its shadow

`Shadows view x r s` says that the optional value `r` decides how `x`, started in `s`,
ends: `x` returns if and only if `r` has a value, and then `view` relates that value to
the result and the state it comes with.  The rules build the shadow of a program along
the program, so that a pure partial function decides which runs return.
-/

namespace TinyCompile.Logic

variable {σ ε α β ρ τ : Type}

/-- An optional value decides how a program ends. -/
def Shadows (view : α → σ → ρ → Prop) (x : StateT σ (Except ε) α) (r : Option ρ) (s : σ) :
    Prop :=
  wp (fun _ => r = none) x (fun a s' => ∃ v, r = some v ∧ view a s' v) s

variable {view : α → σ → ρ → Prop} {view' : β → σ → τ → Prop}

/-- A shadowed program returns exactly where its shadow has a value. -/
theorem Shadows.returns_iff {x : StateT σ (Except ε) α} {r : Option ρ} {s : σ}
    (h : Shadows view x r s) : (∃ a s', x s = .ok (a, s')) ↔ r ≠ none := by
  unfold Shadows wp at h
  cases hrun : x s with
  | ok result =>
    rw [hrun] at h
    obtain ⟨v, hr, -⟩ := h
    exact iff_of_true ⟨result.1, result.2, rfl⟩ (by simp [hr])
  | error e =>
    rw [hrun] at h
    exact iff_of_false nofun fun hne => hne h

theorem Shadows.mono {view₁ : α → σ → ρ → Prop} {x : StateT σ (Except ε) α} {r : Option ρ}
    {s : σ} (h : Shadows view x r s) (hview : ∀ a s' v, view a s' v → view₁ a s' v) :
    Shadows view₁ x r s := by
  refine wp_mono h fun a s' hr => ?_
  obtain ⟨v, hr, hv⟩ := hr
  exact ⟨v, hr, hview a s' v hv⟩

/-! ## The rules of the constructs -/

theorem shadows_pure {a : α} {s : σ} {v : ρ} (h : view a s v) :
    Shadows view (pure a : StateT σ (Except ε) α) (some v) s :=
  ⟨v, rfl, h⟩

theorem shadows_throw (e : ε) (s : σ) :
    Shadows view (throw e : StateT σ (Except ε) α) none s :=
  rfl

theorem shadows_get {f : σ → StateT σ (Except ε) α} {r : Option ρ} {s : σ}
    (h : Shadows view (f s) r s) : Shadows view (get >>= f) r s :=
  h

theorem shadows_set {f : PUnit → StateT σ (Except ε) α} {r : Option ρ} {s s' : σ}
    (h : Shadows view (f ⟨⟩) r s') : Shadows view (set s' >>= f) r s :=
  h

theorem shadows_modify {f : PUnit → StateT σ (Except ε) α} {g : σ → σ} {r : Option ρ} {s : σ}
    (h : Shadows view (f ⟨⟩) r (g s)) : Shadows view (modify g >>= f) r s :=
  h

theorem shadows_ite {c c' : Prop} [Decidable c] [Decidable c'] (hc : c ↔ c')
    {x x' : StateT σ (Except ε) α} {r r' : Option ρ} {s : σ} (hpos : c → Shadows view x r s)
    (hneg : ¬ c → Shadows view x' r' s) :
    Shadows view (if c then x else x') (if c' then r else r') s := by
  by_cases h : c
  · rw [if_pos h, if_pos (hc.mp h)]
    exact hpos h
  · rw [if_neg h, if_neg fun h' => h (hc.mpr h')]
    exact hneg h

theorem shadows_bind {x : StateT σ (Except ε) α} {f : α → StateT σ (Except ε) β} {r : Option ρ}
    {g : ρ → Option τ} {s : σ} (hx : Shadows view x r s)
    (hf : ∀ a s' v, view a s' v → Shadows view' (f a) (g v) s') :
    Shadows view' (x >>= f) (r >>= g) s := by
  unfold Shadows at hx ⊢
  rw [wp_bind]
  cases r with
  | none => exact wp_mono (wp_stop hx fun _ _ => rfl) fun a s' hr => nomatch hr.choose_spec.1
  | some w =>
    refine wp_mono (wp_stop hx fun _ he => nomatch he) fun a s' hr => ?_
    obtain ⟨v, hv, hview⟩ := hr
    cases hv
    exact hf a s' w hview

/-- Only a part of what decides the end is kept. -/
theorem shadows_map {view₁ : α → σ → τ → Prop} {x : StateT σ (Except ε) α} {r : Option ρ}
    {f : ρ → τ} {s : σ} (h : Shadows view x r s)
    (hview : ∀ a s' v, view a s' v → view₁ a s' (f v)) : Shadows view₁ x (r.map f) s := by
  unfold Shadows at h ⊢
  refine wp_mono (wp_stop h fun _ hr => by rw [hr]; rfl) fun a s' hr => ?_
  obtain ⟨v, rfl, hv⟩ := hr
  exact ⟨f v, rfl, hview a s' v hv⟩

/-! ## Loops -/

/-- How a turn is viewed. -/
inductive TurnView {γ : Type} (view : α → σ → ρ → Prop) (view' : γ → σ → τ → Prop) :
    Turn α γ → σ → Turn ρ τ → Prop
  | again {a : α} {s : σ} {v : ρ} (h : view a s v) : TurnView view view' (.again a) s (.again v)
  | leave {c : γ} {s : σ} {w : τ} (h : view' c s w) : TurnView view view' (.leave c) s (.leave w)

/-- A loop is shadowed by iterating the shadow of its turn. -/
theorem shadows_loop {out : ε} {turn : α → StateT σ (Except ε) (Turn α β)}
    {turn' : ρ → Option (Turn ρ τ)}
    (hturn : ∀ a s v, view a s v → Shadows (TurnView view view') (turn a) (turn' v) s) (n : Nat)
    {a : α} {s : σ} {v : ρ} (h : view a s v) :
    Shadows view' (loop out turn n a) (iterate turn' n v) s := by
  induction n generalizing a s v with
  | zero => exact shadows_throw out s
  | succ n ih =>
    refine shadows_bind (hturn a s v h) fun r s' r' hr => ?_
    cases hr with
    | again hv => exact ih hv
    | leave hw => exact shadows_pure hw

end TinyCompile.Logic
