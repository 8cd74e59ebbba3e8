import TinyCompile.Ir.ArgLimit
import TinyCompile.Ir.CodeFacts

set_option autoImplicit false

/-!
# Ir: what holds of every function that is returned without an error
-/

namespace TinyCompile.Ir

open TinyCompile.Source

/-- What the JIT may rely on in a function with `p` parameters. -/
structure IRFunction.WellFormed (p : Nat) (f : IRFunction) : Prop where
  piece : Piece p f.stackCount (1 + p) f.vregCount f.instructions
  labels : LabelsFit 0 f.labelCount f.instructions
  argsFit : ArgsFit f.instructions
  limit : f.instructions.length < maxIrInstructionsPerFunction
  total : f.totalCount = f.instructions.length
  vregs : f.vregCount ≤ maxVregsPerFunction

/-- Labels and jumps fit in every function that `ir_gen` returns, with or without errors. -/
theorem irGen_labels {fresh : IRFunction} {root : ASTNode} {errors : ErrorContext}
    {filename : Option String} {s : GenState}
    (h : irGen fresh root errors filename = .ok (true, s)) :
    LabelsFit 0 s.f.labelCount s.f.instructions ∧
      s.f.instructions.length < maxIrInstructionsPerFunction := by
  obtain ⟨hgen, hlen, -⟩ := irGen_returns h
  have hlabel : s.f.labelCount = (lowerRoot fresh.stackCount root).counters.label :=
    congrArg Counters.label hgen.counters
  rw [hgen.code (Nat.le_of_lt hlen), hlabel]
  exact ⟨lowerRoot_labels fresh.stackCount root, hlen⟩

/-- A function that `ir_gen` returns without an error is the lowering of its root, and
is well formed. -/
theorem irGen_wellFormed {fresh : IRFunction} {root : ASTNode} {errors : ErrorContext}
    {filename : Option String} {s : GenState}
    (h : irGen fresh root errors filename = .ok (true, s)) (herrors : s.f.errors = errors) :
    s.f.WellFormed root.params.length ∧
      s.f.instructions = (lowerRoot fresh.stackCount root).code ∧
      s.f.counters = (lowerRoot fresh.stackCount root).counters ∧
      ∀ reason, Event.drop reason ∈ (lowerRoot fresh.stackCount root).history →
        reason = .missingNode ∨ reason = .returnWithoutExpression := by
  obtain ⟨hgen, hlen, hparams⟩ := irGen_returns h
  have hcode := hgen.code (Nat.le_of_lt hlen)
  have hquiet : ∀ reason, Event.drop reason ∈ (lowerRoot fresh.stackCount root).history →
      reason = .missingNode ∨ reason = .returnWithoutExpression := by
    intro reason hmem
    have hsame := hgen.errors
    rw [herrors] at hsame
    exact drops_of_no_error hsame.symm hmem
  have hok : ¬ OutOfVregs (lowerRoot fresh.stackCount root).history := by
    intro hm
    rcases hquiet _ hm with h | h <;> cases h
  have hpiece := lowerRoot_piece hok
  have hcounters := hgen.counters
  have hvreg : s.f.vregCount = (lowerRoot fresh.stackCount root).counters.vreg :=
    congrArg Counters.vreg hcounters
  have hstack : s.f.stackCount = (lowerRoot fresh.stackCount root).counters.stack :=
    congrArg Counters.stack hcounters
  have hlabel : s.f.labelCount = (lowerRoot fresh.stackCount root).counters.label :=
    congrArg Counters.label hcounters
  refine ⟨⟨?_, ?_, irGen_argsFit h, ?_, ?_, ?_⟩, hcode, hcounters, hquiet⟩
  · rw [hcode, hstack, hvreg]
    exact hpiece
  · rw [hcode, hlabel]
    exact lowerRoot_labels _ root
  · rwa [hcode]
  · rw [hcode, hgen.total]
    exact Nat.min_eq_right (Nat.le_of_lt hlen)
  · rw [hvreg]
    have := hpiece.limit
    omega

/-! ## Small functions -/

/-- The members of a node of type `int` at an address. -/
def intInfo (addr : Nat) : NodeInfo := ⟨addr, .int, 1, 1⟩

/-- `int main() { return 0; }`. -/
def returnZero : ASTNode :=
  .function (intInfo 0) (svOf "main") .int []
    (.block (intInfo 1) [.returnStmt (intInfo 2) (.number (intInfo 3) (svOf "0"))]) false

/-- `int main(int n) { while (n) n = n - 1; return n; }`. -/
def countDown : ASTNode :=
  let n := svOf "n"
  .function (intInfo 0) (svOf "main") .int [⟨n, .int⟩]
    (.block (intInfo 1)
      [.whileStmt (intInfo 2) (.identifier (intInfo 3) n)
          (.assignment (intInfo 4) n
            (.binary .sub (intInfo 5) (.identifier (intInfo 6) n)
              (.number (intInfo 7) (svOf "1")))),
        .returnStmt (intInfo 8) (.identifier (intInfo 9) n)]) false

/-- `int main() { return g(0); }`. -/
def callG : ASTNode :=
  .function (intInfo 0) (svOf "main") .int []
    (.block (intInfo 1) [.returnStmt (intInfo 2)
      (.call (intInfo 3) (svOf "g") [.number (intInfo 4) (svOf "0")])]) false

/-- `int main(int n) { int k = 1; while (n) n = g(n, k); return k; }`. -/
def callLoop : ASTNode :=
  let n := svOf "n"
  let k := svOf "k"
  .function (intInfo 0) (svOf "main") .int [⟨n, .int⟩]
    (.block (intInfo 1)
      [.varDecl (intInfo 2) k .int (.number (intInfo 3) (svOf "1")),
        .whileStmt (intInfo 4) (.identifier (intInfo 5) n)
          (.assignment (intInfo 6) n (.call (intInfo 7) (svOf "g")
            [.identifier (intInfo 8) n, .identifier (intInfo 9) k])),
        .returnStmt (intInfo 10) (.identifier (intInfo 11) k)]) false

/-- Whether `ir_gen` returns a function with a property. -/
def generatesWith (fresh : IRFunction) (root : ASTNode) (errors : ErrorContext)
    (filename : Option String) (property : GenState → Bool) : Bool :=
  match irGen fresh root errors filename with
  | .ok (true, g) => property g
  | _ => false

theorem exists_of_generatesWith {fresh : IRFunction} {root : ASTNode} {errors : ErrorContext}
    {filename : Option String} {property : GenState → Bool}
    (h : generatesWith fresh root errors filename property = true) :
    ∃ g, irGen fresh root errors filename = .ok (true, g) ∧ property g = true := by
  unfold generatesWith at h
  split at h
  · rename_i g heq
    exact ⟨g, heq, h⟩
  · cases h

theorem callLoop_generated : ∃ g, irGen .zeroed callLoop .init none = .ok (true, g) ∧
    g.f.errors = .init ∧ g.f.labelCount = 2 := by
  have hwith : generatesWith .zeroed callLoop .init none (fun g =>
      decide (g.f.errors = .init ∧ g.f.labelCount = 2)) = true := by
    decide +kernel
  obtain ⟨g, hgen, hproperty⟩ := exists_of_generatesWith hwith
  exact ⟨g, hgen, of_decide_eq_true hproperty⟩

end TinyCompile.Ir
