import TinyCompile.Parser.Correct
import TinyCompile.Parser.Reading

set_option autoImplicit false

/-!
# Parser: how a file ends

`parser_parse` returns a tree, returns a null pointer from its own loop or follows one.
Which of the three it does is in the tokens of the file, and so is whether it records an
error.
-/

namespace TinyCompile.Parser

open TinyCompile.Source TinyCompile.Logic

/-! ## Files -/

/-- The tokens of the file are a program of the grammar. -/
def WellFormed (data : StringView) : Prop := ∃ u, DerivesUnit (tokenStream data).proper u

/-- Behind some declarations, well formed or not, the tokens of the file go on with something
that is none, or with one too many. -/
def GivesUp (data : StringView) : Prop := readTokens (tokenStream data).proper = some false

/-- In some declaration of the file a `=` or a `(` has no operand on its left. -/
def FollowsNull (data : StringView) : Prop := readTokens (tokenStream data).proper = none

instance (data : StringView) : Decidable (GivesUp data) := inferInstanceAs (Decidable (_ = _))

instance (data : StringView) : Decidable (FollowsNull data) := inferInstanceAs (Decidable (_ = _))

section

variable {data : StringView} (filename : String) (arena : Nat) (errors : ErrorContext)

/-- A null pointer that is followed in a declaration ends the program. -/
theorem FollowsNull.parse (h : FollowsNull data) :
    parserParse (tokenStream data) filename arena errors = .error .nullPointer := by
  have hshadows := shadows_parserParse (tokenStream data) filename arena errors
  have htokens := parserInit_tokens (tokenStream data) filename arena errors
  have hends := parseUnit_ends
    (show (parserInit (tokenStream data) filename arena errors).tokens.length <
      (tokenStream data).proper.length + 1 by rw [htokens]; exact Nat.lt_succ_self _)
    (show 0 < maxExpressionDepth by decide)
  cases hrun : parserParse (tokenStream data) filename arena errors with
  | ok r => exact absurd h (hshadows.returns_iff.mp ⟨r.1, r.2, hrun⟩)
  | error e =>
    have he : OnlyNull e := wp_of_error hrun hends
    obtain rfl := he
    rfl

/-- Otherwise the file is parsed: to a null pointer if it is given up, and else to a tree. -/
theorem parserParse_returns (h : ¬ FollowsNull data) :
    ∃ node s', parserParse (tokenStream data) filename arena errors = .ok (node, s') ∧
      (node.isNull = true ↔ GivesUp data) := by
  have hshadows := shadows_parserParse (tokenStream data) filename arena errors
  obtain ⟨node, s', hrun⟩ := hshadows.returns_iff.mpr h
  obtain ⟨complete, hread, hnode⟩ := wp_of_ok hrun hshadows
  refine ⟨node, s', hrun, ?_⟩
  unfold GivesUp
  rw [hread, ← hnode]
  cases node.isNull <;> simp

/-- A well formed file records nothing, and anything else that is parsed records errors. -/
theorem wellFormed_iff_clean {node : ASTNode} {s' : Parser}
    (hrun : parserParse (tokenStream data) filename arena errors = .ok (node, s')) :
    WellFormed data ↔ s'.errors.nodes = errors.nodes := by
  constructor
  · rintro ⟨u, hu⟩
    obtain ⟨node', s'', hrun', -, herrors⟩ := hu.reads filename arena errors
    rw [hrun] at hrun'
    cases hrun'
    rw [herrors]
  · intro hclean
    obtain ⟨u, -, hu, -⟩ := parserParse_sound hrun hclean
    exact ⟨u, hu⟩

/-- A well formed file is read to its end. -/
theorem WellFormed.tree (h : WellFormed data) : ¬ GivesUp data ∧ ¬ FollowsNull data := by
  obtain ⟨u, hu⟩ := h
  obtain ⟨node, s', hrun, hnode, -⟩ := hu.reads "" 0 .init
  have hnull : ¬ FollowsNull data := by
    intro hnull
    rw [hnull.parse "" 0 .init] at hrun
    cases hrun
  refine ⟨fun hup => ?_, hnull⟩
  obtain ⟨node', s'', hrun', hiff⟩ := parserParse_returns "" 0 .init hnull
  rw [hrun] at hrun'
  cases hrun'
  cases node with
  | null => cases hnode
  | _ => cases hiff.mpr hup

end

end TinyCompile.Parser
