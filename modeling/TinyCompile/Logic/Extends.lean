import TinyCompile.Logic.Iterate

set_option autoImplicit false

/-!
# Logic: partial functions that extend others

A partial result extends another if it has its value where that has one.  What is built from
partial results in the usual ways extends what is built from the results they extend.
-/

namespace TinyCompile.Logic

variable {α β ρ τ : Type}

/-- `y` is `x` wherever `x` is defined. -/
def Extends (x y : Option α) : Prop := ∀ v, x = some v → y = some v

namespace Extends

theorem refl (x : Option α) : Extends x x := fun _ h => h

theorem none (x : Option α) : Extends Option.none x := fun _ h => by cases h

theorem bind {x y : Option α} {f g : α → Option β} (h : Extends x y)
    (hf : ∀ a, Extends (f a) (g a)) : Extends (x.bind f) (y.bind g) := by
  intro v hv
  obtain ⟨a, ha, hfa⟩ := Option.bind_eq_some_iff.mp hv
  exact Option.bind_eq_some_iff.mpr ⟨a, h a ha, hf a v hfa⟩

theorem map {x y : Option α} (h : Extends x y) (f : α → β) : Extends (x.map f) (y.map f) := by
  intro v hv
  obtain ⟨a, ha, hfa⟩ := Option.map_eq_some_iff.mp hv
  exact Option.map_eq_some_iff.mpr ⟨a, h a ha, hfa⟩

/-- A result that is there under a condition, and under a weaker one. -/
theorem guard {c c' : Prop} [Decidable c] [Decidable c'] {x y : Option α} (hc : c → c')
    (h : Extends x y) : Extends (if c then x else Option.none) (if c' then y else Option.none) := by
  intro v hv
  obtain ⟨hholds, hx⟩ := Option.ite_none_right_eq_some.mp hv
  exact (if_pos (hc hholds)).trans (h v hx)

theorem ite {c : Prop} [Decidable c] {x x' y y' : Option α} (h : Extends x y)
    (h' : Extends x' y') : Extends (if c then x else x') (if c then y else y') := by
  split
  · exact h
  · exact h'

/-- An iteration of a function that extends another. -/
theorem iterate {turn turn' : ρ → Option (Turn ρ τ)} (h : ∀ v, Extends (turn v) (turn' v))
    (n : Nat) (v : ρ) : Extends (Logic.iterate turn n v) (Logic.iterate turn' n v) :=
  fun _ hw => iterate_mono_turn (fun v r hr => h v r hr) hw

end Extends

/-- Two iterations that go on together and leave together make the same number of turns. -/
theorem iterate_together {σ υ : Type} {turn : ρ → Option (Turn ρ τ)}
    {turn' : σ → Option (Turn σ υ)} {R : ρ → σ → Prop} {Q : τ → υ → Prop}
    (hagain : ∀ v v' a, R v a → turn v = some (.again v') →
      ∃ a', turn' a = some (.again a') ∧ R v' a')
    (hleave : ∀ v w a, R v a → turn v = some (.leave w) →
      ∃ b, turn' a = some (.leave b) ∧ Q w b) {n : Nat} {v : ρ} {a : σ} {w : τ} (hv : R v a)
    (h : iterate turn n v = some w) : ∃ b, iterate turn' n a = some b ∧ Q w b := by
  induction n generalizing v a with
  | zero => cases h
  | succ n ih =>
    obtain ⟨n', hn, hlast | ⟨v', hturn, hrest⟩⟩ := iterate_cases h
    · obtain ⟨b, hturn', hb⟩ := hleave v w a hv hlast
      exact ⟨b, iterate_leave hturn', hb⟩
    · obtain rfl : n = n' := by omega
      obtain ⟨a', hturn', hv'⟩ := hagain v v' a hv hturn
      obtain ⟨b, hb, hw⟩ := ih hv' hrest
      exact ⟨b, (iterate_again hturn').trans hb, hw⟩

end TinyCompile.Logic
