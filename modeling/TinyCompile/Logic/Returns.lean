import Mathlib

set_option autoImplicit false

/-!
# Logic: runs that return

A program with state that may stop, and a run of it that returns.  The rules take such a
run apart and put it together again, construct by construct.
-/

namespace TinyCompile.Logic

variable {σ ε α β : Type}

/-- From `s` the program returns `a` and ends in `s'`. -/
def Returns (x : StateT σ (Except ε) α) (s : σ) (a : α) (s' : σ) : Prop := x s = .ok (a, s')

section

variable {x y : StateT σ (Except ε) α} {f : α → StateT σ (Except ε) β} {s s' : σ} {a a' : α}
  {b : β}

@[simp] theorem returns_pure :
    Returns (pure a : StateT σ (Except ε) α) s a' s' ↔ a = a' ∧ s = s' := by
  show Except.ok (a, s) = .ok (a', s') ↔ _
  rw [Except.ok.injEq, Prod.mk.injEq]

@[simp] theorem returns_throw {e : ε} :
    ¬ Returns (throw e : StateT σ (Except ε) α) s a s' := nofun

@[simp] theorem returns_get {s₁ : σ} :
    Returns (get : StateT σ (Except ε) σ) s s₁ s' ↔ s = s₁ ∧ s = s' := by
  show Except.ok (s, s) = .ok (s₁, s') ↔ _
  rw [Except.ok.injEq, Prod.mk.injEq]

@[simp] theorem returns_set {s₁ : σ} {u : PUnit} :
    Returns (set s₁ : StateT σ (Except ε) PUnit) s u s' ↔ s₁ = s' := by
  show Except.ok (PUnit.unit, s₁) = .ok (u, s') ↔ _
  rw [Except.ok.injEq, Prod.mk.injEq]
  exact ⟨fun h => h.2, fun h => ⟨rfl, h⟩⟩

@[simp] theorem returns_modify {g : σ → σ} {u : PUnit} :
    Returns (modify g : StateT σ (Except ε) PUnit) s u s' ↔ g s = s' := by
  show Except.ok (PUnit.unit, g s) = .ok (u, s') ↔ _
  rw [Except.ok.injEq, Prod.mk.injEq]
  exact ⟨fun h => h.2, fun h => ⟨rfl, h⟩⟩

@[simp] theorem returns_bind :
    Returns (x >>= f) s b s' ↔ ∃ a s₁, Returns x s a s₁ ∧ Returns (f a) s₁ b s' := by
  have hbind : (x >>= f) s = (x s).bind fun r => f r.1 r.2 := rfl
  unfold Returns
  rw [hbind]
  constructor
  · intro h
    cases hx : x s with
    | ok r =>
      rw [hx] at h
      exact ⟨r.1, r.2, rfl, h⟩
    | error e =>
      rw [hx] at h
      cases h
  · rintro ⟨a, s₁, hx, hf⟩
    rw [hx]
    exact hf

@[simp] theorem returns_map {g : α → β} :
    Returns (g <$> x) s b s' ↔ ∃ a, Returns x s a s' ∧ g a = b := by
  have hmap : Returns (g <$> x) s b s' ↔ Returns (x >>= fun a => pure (g a)) s b s' := Iff.rfl
  rw [hmap, returns_bind]
  simp only [returns_pure]
  constructor
  · rintro ⟨a, s₁, hx, hb, rfl⟩
    exact ⟨a, hx, hb⟩
  · rintro ⟨a, hx, hb⟩
    exact ⟨a, s', hx, hb, rfl⟩

@[simp] theorem returns_liftM {e : Except ε α} :
    Returns (liftM e : StateT σ (Except ε) α) s a s' ↔ e = .ok a ∧ s = s' := by
  cases e with
  | ok a₁ =>
    show Except.ok (a₁, s) = .ok (a, s') ↔ _
    rw [Except.ok.injEq, Prod.mk.injEq, Except.ok.injEq]
  | error e => exact ⟨nofun, nofun⟩

/-- The result and the last state are determined. -/
theorem Returns.unique (h : Returns x s a s') {s'' : σ} (h' : Returns x s a' s'') :
    a = a' ∧ s' = s'' := by
  have hpair : (a, s') = (a', s'') := Except.ok.inj (h.symm.trans h')
  exact Prod.mk.inj hpair

end

end TinyCompile.Logic
