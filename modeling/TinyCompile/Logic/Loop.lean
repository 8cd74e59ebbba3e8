import TinyCompile.Logic.Wp

set_option autoImplicit false

/-!
# Logic: loops

A loop repeats its body, a turn, until the turn leaves it.  The number of turns is
bounded; a loop that runs out of turns stops with `out`.  A measure that falls with
every turn that does not leave shows that the bound is never met.
-/

namespace TinyCompile.Logic

variable {σ ε β γ : Type}

/-- How a turn of a loop ends. -/
inductive Turn (β γ : Type) where
  /-- The loop goes on with a new value. -/
  | again (b : β)
  /-- The loop is left with a result. -/
  | leave (c : γ)
  deriving DecidableEq, Repr

/-- Repeat a turn. -/
def loop (out : ε) (turn : β → StateT σ (Except ε) (Turn β γ)) :
    Nat → β → StateT σ (Except ε) γ
  | 0, _ => throw out
  | n + 1, b => do
      match ← turn b with
      | .again b => loop out turn n b
      | .leave c => return c

variable {out : ε} {turn : β → StateT σ (Except ε) (Turn β γ)} {stop : ε → Prop}
  {Q : γ → σ → Prop}

/-- One turn. -/
theorem wp_loop_succ {n : Nat} {b : β} {s : σ} {R : Turn β γ → σ → Prop}
    (hturn : wp stop (turn b) R s)
    (hagain : ∀ b' s', R (.again b') s' → wp stop (loop out turn n b') Q s')
    (hleave : ∀ c s', R (.leave c) s' → Q c s') : wp stop (loop out turn (n + 1) b) Q s := by
  refine wp_seq hturn fun r s' hr => ?_
  cases r with
  | again b' => exact hagain b' s' hr
  | leave c => exact hleave c s' hr

/-- Total correctness: an invariant, and a measure that falls with every turn. -/
theorem wp_loop (inv : β → σ → Prop) (size : σ → Nat)
    (hturn : ∀ b s, inv b s → wp stop (turn b) (fun r s' =>
      match r with
      | .again b' => inv b' s' ∧ size s' < size s
      | .leave c => Q c s') s)
    {n : Nat} {b : β} {s : σ} (hinv : inv b s) (hn : size s < n) :
    wp stop (loop out turn n b) Q s := by
  induction n generalizing b s with
  | zero => omega
  | succ n ih =>
    exact wp_loop_succ (hturn b s hinv) (fun b' s' h => ih h.1 (by have := h.2; omega))
      fun c s' h => h

/-- Partial correctness: an invariant is enough where running out of turns is allowed. -/
theorem wp_loop_partial (inv : β → σ → Prop) (hout : stop out)
    (hturn : ∀ b s, inv b s → wp stop (turn b) (fun r s' =>
      match r with
      | .again b' => inv b' s'
      | .leave c => Q c s') s)
    {n : Nat} {b : β} {s : σ} (hinv : inv b s) : wp stop (loop out turn n b) Q s := by
  induction n generalizing b s with
  | zero => exact hout
  | succ n ih =>
    exact wp_loop_succ (hturn b s hinv) (fun b' s' h => ih h) fun c s' h => h

end TinyCompile.Logic
