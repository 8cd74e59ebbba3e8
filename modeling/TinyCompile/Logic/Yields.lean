import TinyCompile.Logic.Loop

set_option autoImplicit false

/-!
# Logic: what a program returns, whatever the state

`Yields P x` says that every value `x` returns satisfies `P`, from any state and into any
state.  Nothing is said of runs that stop.
-/

namespace TinyCompile.Logic

variable {σ ε α β γ : Type} {P : α → Prop}

/-- Every value that is returned satisfies `P`. -/
def Yields (P : α → Prop) (x : StateT σ (Except ε) α) : Prop :=
  ∀ s, wp (fun _ => True) x (fun a _ => P a) s

theorem Yields.of_ok {x : StateT σ (Except ε) α} (h : Yields P x) {s s' : σ} {a : α}
    (hrun : x s = .ok (a, s')) : P a := wp_of_ok hrun (h s)

theorem Yields.mono {x : StateT σ (Except ε) α} {Q : α → Prop} (h : Yields P x)
    (hPQ : ∀ a, P a → Q a) : Yields Q x := fun s => wp_mono (h s) fun a _ => hPQ a

theorem yields_any (x : StateT σ (Except ε) α) : Yields (fun _ => True) x :=
  fun _ => wp_intro (fun _ _ _ => trivial) fun _ _ => trivial

theorem yields_pure {a : α} (h : P a) : Yields P (pure a : StateT σ (Except ε) α) := fun _ => h

theorem yields_throw (e : ε) : Yields P (throw e : StateT σ (Except ε) α) := fun _ => trivial

theorem yields_seq {x : StateT σ (Except ε) β} {f : β → StateT σ (Except ε) α} {R : β → Prop}
    (hx : Yields R x) (hf : ∀ b, R b → Yields P (f b)) : Yields P (x >>= f) :=
  fun s => wp_seq (hx s) fun b s' hb => hf b hb s'

/-- Behind a part whose result does not matter. -/
theorem yields_after {x : StateT σ (Except ε) β} {f : β → StateT σ (Except ε) α}
    (hf : ∀ b, Yields P (f b)) : Yields P (x >>= f) := yields_seq (yields_any x) fun b _ => hf b

theorem yields_ite {c : Prop} [Decidable c] {x y : StateT σ (Except ε) α} (hx : c → Yields P x)
    (hy : ¬ c → Yields P y) : Yields P (if c then x else y) :=
  fun s => wp_ite (fun h => hx h s) fun h => hy h s

/-- How a turn ends that keeps `R` and leaves with `P`. -/
def TurnYields {β γ : Type} (R : β → Prop) (P : γ → Prop) : Turn β γ → Prop
  | .again b => R b
  | .leave c => P c

/-- A loop whose turns keep `R`. -/
theorem yields_loop {out : ε} {turn : β → StateT σ (Except ε) (Turn β γ)} {R : β → Prop}
    {P : γ → Prop} (hturn : ∀ b, R b → Yields (TurnYields R P) (turn b)) {n : Nat} {b : β}
    (hb : R b) : Yields P (loop out turn n b) := by
  intro s
  apply wp_loop_partial (fun b _ => R b) trivial _ hb
  intro b s hb
  apply wp_mono (hturn b hb s)
  intro r s' hr
  cases r with
  | again b' => exact hr
  | leave c => exact hr

end TinyCompile.Logic
