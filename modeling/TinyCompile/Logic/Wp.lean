import Mathlib

set_option autoImplicit false

/-!
# Logic: preconditions of programs with state that may stop

A program over a state `σ` either returns a value and a new state or stops with an
`ε`.  `wp stop x Q s` says that `x`, started in `s`, returns only into `Q` and stops
only with what `stop` allows: partial correctness where `stop` is always true, and
total correctness where it is never true.
-/

namespace TinyCompile.Logic

variable {σ ε α β : Type} {stop : ε → Prop} {Q : α → σ → Prop}

/-- What must hold before a program for `Q` to hold after it. -/
def wp (stop : ε → Prop) (x : StateT σ (Except ε) α) (Q : α → σ → Prop) (s : σ) : Prop :=
  match x s with
  | .ok (a, s') => Q a s'
  | .error e => stop e

/-! ## Returning and stopping -/

theorem wp_of_ok {x : StateT σ (Except ε) α} {s s' : σ} {a : α} (hrun : x s = .ok (a, s'))
    (h : wp stop x Q s) : Q a s' := by
  unfold wp at h
  rw [hrun] at h
  exact h

/-- Both parts of a sequence without state return where the whole does. -/
theorem ok_of_bind {x : Except ε β} {f : β → Except ε α} {a : α} (h : x >>= f = .ok a) :
    ∃ b, x = .ok b ∧ f b = .ok a := by
  cases x with
  | ok b => exact ⟨b, rfl, h⟩
  | error e => cases h

theorem wp_of_error {x : StateT σ (Except ε) α} {s : σ} {e : ε} (hrun : x s = .error e)
    (h : wp stop x Q s) : stop e := by
  unfold wp at h
  rw [hrun] at h
  exact h

/-- A precondition, from what happens in either case. -/
theorem wp_intro {x : StateT σ (Except ε) α} {s : σ}
    (hok : ∀ a s', x s = .ok (a, s') → Q a s') (herror : ∀ e, x s = .error e → stop e) :
    wp stop x Q s := by
  unfold wp
  cases hrun : x s with
  | ok r => exact hok r.1 r.2 hrun
  | error e => exact herror e hrun

/-- A program that must not stop returns. -/
theorem wp_total {x : StateT σ (Except ε) α} {s : σ} (h : wp (fun _ => False) x Q s) :
    ∃ a s', x s = .ok (a, s') ∧ Q a s' := by
  unfold wp at h
  cases hrun : x s with
  | ok r =>
    rw [hrun] at h
    exact ⟨r.1, r.2, rfl, h⟩
  | error e =>
    rw [hrun] at h
    exact h.elim

/-! ## Weaker and joint postconditions -/

/-- Stopping may be allowed for more reasons. -/
theorem wp_stop {stop' : ε → Prop} {x : StateT σ (Except ε) α} {s : σ} (h : wp stop x Q s)
    (hstop : ∀ e, stop e → stop' e) : wp stop' x Q s := by
  unfold wp at h ⊢
  split at h
  · exact h
  · exact hstop _ h

theorem wp_mono {x : StateT σ (Except ε) α} {s : σ} {Q' : α → σ → Prop}
    (h : wp stop x Q s) (hQ : ∀ a s', Q a s' → Q' a s') : wp stop x Q' s := by
  unfold wp at h ⊢
  split at h
  · exact hQ _ _ h
  · exact h

theorem wp_and {x : StateT σ (Except ε) α} {s : σ} {Q' : α → σ → Prop}
    (h : wp stop x Q s) (h' : wp stop x Q' s) : wp stop x (fun a s' => Q a s' ∧ Q' a s') s := by
  unfold wp at h h' ⊢
  split at h
  · rename_i heq
    rw [heq] at h'
    exact ⟨h, h'⟩
  · exact h

/-! ## The rules of the constructs -/

@[simp] theorem wp_pure (a : α) (s : σ) :
    wp stop (pure a : StateT σ (Except ε) α) Q s ↔ Q a s := Iff.rfl

@[simp] theorem wp_throw (e : ε) (s : σ) :
    wp stop (throw e : StateT σ (Except ε) α) Q s ↔ stop e := Iff.rfl

@[simp] theorem wp_get (Q : σ → σ → Prop) (s : σ) :
    wp stop (get : StateT σ (Except ε) σ) Q s ↔ Q s s := Iff.rfl

@[simp] theorem wp_set (Q : PUnit → σ → Prop) (s s' : σ) :
    wp stop (set s' : StateT σ (Except ε) PUnit) Q s ↔ Q ⟨⟩ s' := Iff.rfl

@[simp] theorem wp_modify (Q : PUnit → σ → Prop) (f : σ → σ) (s : σ) :
    wp stop (modify f : StateT σ (Except ε) PUnit) Q s ↔ Q ⟨⟩ (f s) := Iff.rfl

@[simp] theorem wp_bind (x : StateT σ (Except ε) β) (f : β → StateT σ (Except ε) α) (s : σ) :
    wp stop (x >>= f) Q s ↔ wp stop x (fun b s' => wp stop (f b) Q s') s := by
  have hbind : (x >>= f) s = (x s >>= fun r => f r.1 r.2) := rfl
  unfold wp
  rw [hbind]
  cases x s with
  | ok r => rfl
  | error e => rfl

@[simp] theorem wp_map (x : StateT σ (Except ε) β) (f : β → α) (s : σ) :
    wp stop (f <$> x) Q s ↔ wp stop x (fun b s' => Q (f b) s') s :=
  wp_bind x (fun b => pure (f b)) s

/-- A computation without state, inside one with state. -/
theorem wp_liftM {x : Except ε α} {s : σ} (hok : ∀ a, x = .ok a → Q a s)
    (herror : ∀ e, x = .error e → stop e) : wp stop (liftM x : StateT σ (Except ε) α) Q s := by
  cases x with
  | ok a => exact hok a rfl
  | error e => exact herror e rfl

theorem wp_ite {c : Prop} [Decidable c] {x y : StateT σ (Except ε) α} {s : σ}
    (hpos : c → wp stop x Q s) (hneg : ¬ c → wp stop y Q s) :
    wp stop (if c then x else y) Q s := by
  split
  · exact hpos ‹_›
  · exact hneg ‹_›

/-- Sequencing with a weakened condition in between. -/
theorem wp_seq {x : StateT σ (Except ε) β} {f : β → StateT σ (Except ε) α} {s : σ}
    {R : β → σ → Prop} (hx : wp stop x R s) (hf : ∀ b s', R b s' → wp stop (f b) Q s') :
    wp stop (x >>= f) Q s :=
  (wp_bind x f s).mpr (wp_mono hx hf)

end TinyCompile.Logic
