import TinyCompile.Logic.Loop

set_option autoImplicit false

/-!
# Logic: iterating a partial function

A partial function that goes on with a new value or leaves with a result is a machine.
`iterate` runs it for a bounded number of turns; more turns change no result, and turns
already made may be left out.
-/

namespace TinyCompile.Logic

variable {ρ τ : Type}

/-- Repeat a partial function, at most as often as the bound says. -/
def iterate (turn : ρ → Option (Turn ρ τ)) : Nat → ρ → Option τ
  | 0, _ => none
  | n + 1, v => do
      match ← turn v with
      | .again v => iterate turn n v
      | .leave w => some w

/-- The value behind so many turns that go on. -/
def stepsTo (turn : ρ → Option (Turn ρ τ)) : Nat → ρ → Option ρ
  | 0, v => some v
  | n + 1, v => do
      match ← turn v with
      | .again v => stepsTo turn n v
      | .leave _ => none

/-- Some number of turns leads to a result. -/
def Results (turn : ρ → Option (Turn ρ τ)) (v : ρ) (w : τ) : Prop :=
  ∃ n, iterate turn n v = some w

/-- Some number of turns leads to a value. -/
def Leads (turn : ρ → Option (Turn ρ τ)) (v v' : ρ) : Prop := ∃ n, stepsTo turn n v = some v'

section

variable {turn : ρ → Option (Turn ρ τ)} {n : Nat} {v v' v'' : ρ} {w : τ}

attribute [local simp] iterate stepsTo

theorem iterate_again (h : turn v = some (.again v')) :
    iterate turn (n + 1) v = iterate turn n v' := by
  rw [iterate, h]
  rfl

theorem iterate_leave (h : turn v = some (.leave w)) : iterate turn (n + 1) v = some w := by
  rw [iterate, h]
  rfl

theorem stepsTo_again (h : turn v = some (.again v')) :
    stepsTo turn (n + 1) v = stepsTo turn n v' := by
  rw [stepsTo, h]
  rfl

/-- What the first turn of an iteration with a result does. -/
theorem iterate_cases (h : iterate turn n v = some w) :
    ∃ m, n = m + 1 ∧ (turn v = some (.leave w) ∨
      ∃ v', turn v = some (.again v') ∧ iterate turn m v' = some w) := by
  cases n with
  | zero => cases h
  | succ m =>
    refine ⟨m, rfl, ?_⟩
    cases hturn : turn v with
    | none =>
      rw [iterate, hturn] at h
      cases h
    | some r =>
      cases r with
      | again v' => exact .inr ⟨v', rfl, iterate_again hturn ▸ h⟩
      | leave w' =>
        rw [iterate_leave hturn] at h
        cases h
        exact .inl rfl

theorem stepsTo_cases (h : stepsTo turn (n + 1) v = some v') :
    ∃ v₁, turn v = some (.again v₁) ∧ stepsTo turn n v₁ = some v' := by
  cases hturn : turn v with
  | none =>
    rw [stepsTo, hturn] at h
    cases h
  | some r =>
    cases r with
    | again v₁ => exact ⟨v₁, rfl, stepsTo_again hturn ▸ h⟩
    | leave w =>
      rw [stepsTo, hturn] at h
      cases h

/-- More turns change no result. -/
theorem iterate_mono {m : Nat} (h : iterate turn n v = some w) (hle : n ≤ m) :
    iterate turn m v = some w := by
  induction n generalizing m v with
  | zero => cases h
  | succ n ih =>
    obtain ⟨m, rfl⟩ : ∃ k, m = k + 1 := ⟨m - 1, by omega⟩
    obtain ⟨n', hn, hleave | ⟨v', hagain, hrest⟩⟩ := iterate_cases h
    · exact iterate_leave hleave
    · obtain rfl : n = n' := by omega
      rw [iterate_again hagain]
      exact ih hrest (by omega)

/-- A function that is defined more often gives no other result. -/
theorem iterate_mono_turn {turn' : ρ → Option (Turn ρ τ)}
    (hturn : ∀ v r, turn v = some r → turn' v = some r) (h : iterate turn n v = some w) :
    iterate turn' n v = some w := by
  induction n generalizing v with
  | zero => cases h
  | succ n ih =>
    obtain ⟨n', hn, hleave | ⟨v', hagain, hrest⟩⟩ := iterate_cases h
    · exact iterate_leave (hturn v _ hleave)
    · obtain rfl : n = n' := by omega
      rw [iterate_again (hturn v _ hagain)]
      exact ih hrest

/-- The result behind turns that have been made is what the remaining turns lead to. -/
theorem iterate_behind {k : Nat} (hsteps : stepsTo turn k v = some v')
    (h : iterate turn n v = some w) : ∃ m, n = k + m ∧ iterate turn m v' = some w := by
  induction k generalizing n v with
  | zero =>
    cases hsteps
    exact ⟨n, (Nat.zero_add n).symm, h⟩
  | succ k ih =>
    obtain ⟨v₁, hturn, hrest⟩ := stepsTo_cases hsteps
    obtain ⟨n', rfl, hleave | ⟨v₁', hagain, hiter⟩⟩ := iterate_cases h
    · rw [hturn] at hleave
      cases hleave
    · rw [hturn] at hagain
      cases hagain
      obtain ⟨m, rfl, hm⟩ := ih hrest hiter
      exact ⟨m, by omega, hm⟩

theorem iterate_ahead {k : Nat} (hsteps : stepsTo turn k v = some v') :
    iterate turn (k + n) v = iterate turn n v' := by
  induction k generalizing v with
  | zero =>
    cases hsteps
    rw [Nat.zero_add]
  | succ k ih =>
    obtain ⟨v₁, hturn, hrest⟩ := stepsTo_cases hsteps
    rw [Nat.succ_add, iterate_again hturn]
    exact ih hrest

theorem stepsTo_trans {k : Nat} (h : stepsTo turn k v = some v')
    (h' : stepsTo turn n v' = some v'') : stepsTo turn (k + n) v = some v'' := by
  induction k generalizing v with
  | zero =>
    cases h
    rw [Nat.zero_add]
    exact h'
  | succ k ih =>
    obtain ⟨v₁, hturn, hrest⟩ := stepsTo_cases h
    rw [Nat.succ_add, stepsTo_again hturn]
    exact ih hrest

theorem Leads.refl (v : ρ) : Leads turn v v := ⟨0, rfl⟩

theorem Leads.trans (h : Leads turn v v') (h' : Leads turn v' v'') : Leads turn v v'' := by
  obtain ⟨k, hk⟩ := h
  obtain ⟨n, hn⟩ := h'
  exact ⟨k + n, stepsTo_trans hk hn⟩

theorem Leads.one (h : turn v = some (.again v')) : Leads turn v v' :=
  ⟨1, stepsTo_again h⟩

theorem Leads.results (h : Leads turn v v') (hw : Results turn v' w) : Results turn v w := by
  obtain ⟨k, hk⟩ := h
  obtain ⟨n, hn⟩ := hw
  exact ⟨k + n, (iterate_ahead hk).trans hn⟩

/-- The result is still ahead, and not farther away. -/
theorem Leads.iterate (h : Leads turn v v') (hw : iterate turn n v = some w) :
    ∃ m, m ≤ n ∧ iterate turn m v' = some w := by
  obtain ⟨k, hk⟩ := h
  obtain ⟨m, rfl, hm⟩ := iterate_behind hk hw
  exact ⟨m, Nat.le_add_left m k, hm⟩

/-- A function that goes on where another does goes the same way. -/
theorem Leads.mono_turn {turn' : ρ → Option (Turn ρ τ)}
    (hturn : ∀ v t, turn v = some t → turn' v = some t) (h : Leads turn v v') :
    Leads turn' v v' := by
  obtain ⟨k, hk⟩ := h
  induction k generalizing v with
  | zero =>
    cases hk
    exact .refl _
  | succ k ih =>
    obtain ⟨v₁, hagain, hrest⟩ := stepsTo_cases hk
    exact (Leads.one (hturn _ _ hagain)).trans (ih hrest)

/-- What every turn keeps holds as far as the turns lead. -/
theorem Leads.keeps {P : ρ → Prop} (hstep : ∀ v v', turn v = some (.again v') → P v → P v')
    (h : Leads turn v v') (hv : P v) : P v' := by
  obtain ⟨k, hk⟩ := h
  induction k generalizing v with
  | zero =>
    cases hk
    exact hv
  | succ k ih =>
    obtain ⟨v₁, hagain, hrest⟩ := stepsTo_cases hk
    exact ih (hstep v v₁ hagain hv) hrest

/-- There is at most one result. -/
theorem Results.unique {w' : τ} (h : Results turn v w) (h' : Results turn v w') : w = w' := by
  obtain ⟨n, hn⟩ := h
  obtain ⟨m, hm⟩ := h'
  have hn' := iterate_mono hn (Nat.le_max_left n m)
  rw [iterate_mono hm (Nat.le_max_right n m)] at hn'
  exact (Option.some.inj hn').symm

/-- Functions that agree where both go on have the same results. -/
theorem Results.agree {turn' : ρ → Option (Turn ρ τ)} {w' : τ}
    (hturn : ∀ v t t', turn v = some t → turn' v = some t' → t = t') (h : Results turn v w)
    (h' : Results turn' v w') : w = w' := by
  obtain ⟨n, hn⟩ := h
  obtain ⟨m, hm⟩ := h'
  induction n generalizing v m with
  | zero => cases hn
  | succ n ih =>
    obtain ⟨n', hn', hfirst⟩ := iterate_cases hn
    obtain ⟨m', rfl, hfirst'⟩ := iterate_cases hm
    obtain rfl : n = n' := by omega
    obtain hleave | ⟨v₁, hagain, hrest⟩ := hfirst
    · obtain hleave' | ⟨v₂, hagain', -⟩ := hfirst'
      · cases hturn v _ _ hleave hleave'
        rfl
      · cases hturn v _ _ hleave hagain'
    · obtain hleave' | ⟨v₂, hagain', hrest'⟩ := hfirst'
      · cases hturn v _ _ hagain hleave'
      · cases hturn v _ _ hagain hagain'
        exact ih hrest m' hrest'

/-- A machine that follows every turn arrives with the result. -/
theorem Results.simulate {σ : Type} {reach : σ → σ → Prop} {R : ρ → σ → Prop} {Q : τ → σ → Prop}
    (htrans : ∀ a b c, reach a b → reach b c → reach a c)
    (hagain : ∀ v v' a, turn v = some (.again v') → R v a → ∃ b, reach a b ∧ R v' b)
    (hleave : ∀ v w a, turn v = some (.leave w) → R v a → ∃ b, reach a b ∧ Q w b)
    (h : Results turn v w) {a : σ} (hv : R v a) : ∃ b, reach a b ∧ Q w b := by
  obtain ⟨n, hn⟩ := h
  induction n generalizing v a with
  | zero => cases hn
  | succ n ih =>
    obtain ⟨n', hn', hlast | ⟨v₁, hturn, hrest⟩⟩ := iterate_cases hn
    · exact hleave v w a hlast hv
    · obtain rfl : n = n' := by omega
      obtain ⟨b, hab, hb⟩ := hagain v v₁ a hturn hv
      obtain ⟨c, hbc, hc⟩ := ih hb hrest
      exact ⟨c, htrans a b c hab hbc, hc⟩

end

end TinyCompile.Logic
