import TinyCompile.Parser.Exact
import TinyCompile.Parser.Complete

set_option autoImplicit false

/-!
# Parser: the parser and the grammar

A file is parsed without an error exactly if it is well formed.  The tree that is
returned is then the only one its tokens are a way to write; what may be wrong with it is
that a function has more parameters than `parse_function` allocates room for.
-/

namespace TinyCompile.Parser

open TinyCompile.Source TinyCompile.Logic

section

variable {lexer : TokenStream} (filename : String) (arena : Nat) (errors : ErrorContext)

/-- The parser decides the grammar. -/
theorem parserParse_iff (u : TranslationUnit) :
    (∃ node s', parserParse lexer filename arena errors = .ok (node, s') ∧
      s'.errors.nodes = errors.nodes ∧ node.unit? = some u) ↔ DerivesUnit lexer.proper u := by
  constructor
  · rintro ⟨node, s', hrun, hclean, hnode⟩
    obtain ⟨u', hnode', hu', -⟩ := parserParse_sound hrun hclean
    obtain rfl : u = u' := Option.some.inj (hnode.symm.trans hnode')
    exact hu'
  · intro h
    obtain ⟨node, s', hrun, hnode, herrors⟩ := h.reads filename arena errors
    exact ⟨node, s', hrun, by rw [herrors], hnode⟩

end

/-- Tokens are a way to write at most one file. -/
theorem DerivesUnit.unique {lexer : TokenStream} {u u' : TranslationUnit}
    (h : DerivesUnit lexer.proper u) (h' : DerivesUnit lexer.proper u') : u = u' := by
  obtain ⟨node, s, hrun, hnode, -⟩ := h.reads "" 0 .init
  obtain ⟨node', s', hrun', hnode', -⟩ := h'.reads "" 0 .init
  rw [hrun] at hrun'
  cases hrun'
  exact Option.some.inj (hnode.symm.trans hnode')

/-- A translation unit that is returned without an error is exact: no required part of
the tree is missing, the tokens are a way to write it, and every parameter is in the
array of its function. -/
def ParsesExactly (lexer : TokenStream) (filename : String) (arena : Nat)
    (errors : ErrorContext) : Prop :=
  ∀ node s', parserParse lexer filename arena errors = .ok (node, s') → node.isNull = false →
    s'.errors.nodes = errors.nodes →
    (∃ u, node.unit? = some u ∧ DerivesUnit lexer.proper u) ∧ s'.overrun = false

/-- What represents a file is there. -/
theorem isNull_of_unit? {node : ASTNode} {u : TranslationUnit} (h : node.unit? = some u) :
    node.isNull = false := by
  cases node with
  | null => cases h
  | _ => rfl

/-- An error-free parse is exact if and only if the tokens are no file with more than 16
parameters to a function. -/
theorem parsesExactly_iff (lexer : TokenStream) (filename : String) (arena : Nat)
    (errors : ErrorContext) :
    ParsesExactly lexer filename arena errors ↔
      ¬ ∃ u, DerivesUnit lexer.proper u ∧ ∃ f ∈ u, 16 < f.params.length := by
  constructor
  · rintro hexact ⟨u, hu, f, hf, hlong⟩
    obtain ⟨node, s', hrun, hnode, herrors⟩ := hu.reads filename arena errors
    have hclean : s'.errors.nodes = errors.nodes := by rw [herrors]
    obtain ⟨u', hnode', -, hmark⟩ := parserParse_sound hrun hclean
    obtain rfl : u = u' := Option.some.inj (hnode.symm.trans hnode')
    have hfalse := (hexact node s' hrun (isNull_of_unit? hnode) hclean).2
    rw [hmark] at hfalse
    have htrue : overlong u = true := List.any_eq_true.mpr ⟨f, hf, decide_eq_true hlong⟩
    rw [hfalse] at htrue
    cases htrue
  · intro hroom node s' hrun _ hclean
    obtain ⟨u, hnode, hu, hmark⟩ := parserParse_sound hrun hclean
    refine ⟨⟨u, hnode, hu⟩, ?_⟩
    rw [hmark]
    refine Bool.eq_false_iff.mpr fun hlong => hroom ⟨u, hu, ?_⟩
    obtain ⟨f, hf, hf'⟩ := List.any_eq_true.mp hlong
    exact ⟨f, hf, of_decide_eq_true hf'⟩

/-- A prototype with 17 parameters. -/
def seventeenParams : StringView :=
  svOf ("int f(int a,int b,int c,int d,int e,int g,int h,int i,int j,int k,int l,int m," ++
    "int n,int o,int p,int q,int r);")

/-- What a run of the parser leaves: a tree, no error, and the mark. -/
def overrunsQuietly (r : Except Stop (ASTNode × Parser)) : Bool :=
  match r with
  | .ok (node, s') => !node.isNull && s'.errors.nodes.isEmpty && s'.overrun
  | .error _ => false

/-- The parser takes 17 parameters without an error. -/
theorem seventeenParams_overrun :
    ¬ ParsesExactly (tokenStream seventeenParams) "a.c" 0 .init := by
  intro h
  have hquiet : overrunsQuietly
      (parserParse (tokenStream seventeenParams) "a.c" 0 .init) = true := by decide +kernel
  unfold overrunsQuietly at hquiet
  split at hquiet
  · rename_i node s' hrun
    simp only [Bool.and_eq_true, Bool.not_eq_true', List.isEmpty_iff] at hquiet
    have hfalse := (h node s' hrun hquiet.1.1 hquiet.1.2).2
    rw [hquiet.2] at hfalse
    cases hfalse
  · cases hquiet

end TinyCompile.Parser
