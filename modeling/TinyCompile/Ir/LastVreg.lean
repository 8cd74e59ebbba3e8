import TinyCompile.Ir.Paths

set_option autoImplicit false

/-!
# Ir: the last virtual register

The slot of the register numbered `vreg_count - 1` is the lowest of the frame and may lie
below `rsp`, where the pushes of a call write.  No value waits there for its reader while
a call is made: the register is read right behind the instruction that writes it, and when
it is a parameter the function makes no call.
-/

namespace TinyCompile.Ir

open TinyCompile.Source

/-! ## The results of calls -/

/-- Calls write registers that are allocated from `n` on. -/
structure OwnCalls (n next : Nat) (code : List IRInstruction) : Prop where
  le : n ≤ next
  calls : ∀ inst ∈ code, inst.opcode = .call → n ≤ inst.dest

namespace OwnCalls

variable {n m next : Nat} {code code' : List IRInstruction} {inst : IRInstruction}

theorem nil (n : Nat) : OwnCalls n n [] :=
  ⟨Nat.le_refl _, fun _ hi => absurd hi List.not_mem_nil⟩

theorem single (n : Nat) (h : inst.opcode ≠ .call) : OwnCalls n n [inst] :=
  ⟨Nat.le_refl _, fun i hi hop => by
    rw [List.mem_singleton.mp hi] at hop
    exact absurd hop h⟩

theorem append (h : OwnCalls n m code) (h' : OwnCalls m next code') :
    OwnCalls n next (code ++ code') := by
  refine ⟨Nat.le_trans h.le h'.le, fun i hi hop => ?_⟩
  rcases List.mem_append.mp hi with hi | hi
  · exact h.calls i hi hop
  · exact Nat.le_trans h.le (h'.calls i hi hop)

theorem finish {history : List Event} {inst : Nat → IRInstruction} (h : OwnCalls n m code)
    (hinst : ∀ reg, (inst reg).opcode = .call → (inst reg).dest = reg) :
    OwnCalls n (Ir.finish code m history inst).next (Ir.finish code m history inst).code := by
  unfold Ir.finish
  split
  · exact h
  · refine h.append ⟨Nat.le_succ m, fun i hi hop => ?_⟩
    rw [List.mem_singleton.mp hi] at hop ⊢
    exact Nat.le_of_eq (hinst m hop).symm

/-- An instruction that uses a value. -/
theorem use {reg : Nat} (h : OwnCalls n m code) (hinst : inst.opcode ≠ .call) :
    OwnCalls n m (code ++ if reg = 0 then [] else [inst]) := by
  split
  · rwa [List.append_nil]
  · exact h.append (single m hinst)

end OwnCalls

theorem binaryOpcode_not_call (op : BinaryOp) (type : DataType) :
    binaryOpcode op type ≠ .call := by
  cases op with
  | rshift =>
    cases hsign : typeIsUnsigned type <;> simp [binaryOpcode, hsign]
  | _ => exact nofun

mutual

theorem lowerExpr_ownCalls (env : Env) : ∀ (node : ASTNode) (n : Nat),
    OwnCalls n (lowerExpr env node n).next (lowerExpr env node n).code
  | .number info value, n => (OwnCalls.nil n).finish nofun
  | .identifier info name, n => by
      simp only [lowerExpr]
      split
      · exact .nil n
      · split
        · exact (OwnCalls.nil n).finish nofun
        · exact .nil n
  | .unary op info operand, n => by
      have ih := lowerExpr_ownCalls env operand n
      simp only [lowerExpr]
      split
      · exact ih
      · refine ih.finish fun reg hop => ?_
        cases op <;> cases hop
  | .binary op info left right, n => by
      have ihl := lowerExpr_ownCalls env left n
      have ihr := lowerExpr_ownCalls env right (lowerExpr env left n).next
      simp only [lowerExpr]
      split
      · exact ihl
      · split
        · exact ihl.append ihr
        · exact (ihl.append ihr).finish fun reg hop => absurd hop (binaryOpcode_not_call op _)
  | .call info functionName args, n => by
      have ih := lowerArgs_ownCalls env args n
      simp only [lowerExpr]
      split
      · exact ih
      · refine OwnCalls.finish (ih.append ⟨Nat.le_refl _, fun inst hi hop => ?_⟩)
          fun _ _ => rfl
        rw [(mem_argInsts hi).1] at hop
        cases hop
  | .null, n | .varDecl _ _ _ _, n | .assignment _ _ _, n | .returnStmt _ _, n
  | .ifStmt _ _ _ _, n | .whileStmt _ _ _, n | .block _ _, n | .function _ _ _ _ _ _, n
  | .translationUnit _ _, n => .nil n

theorem lowerArgs_ownCalls (env : Env) : ∀ (args : List ASTNode) (n : Nat),
    OwnCalls n (lowerArgs env args n).next (lowerArgs env args n).code
  | [], n => .nil n
  | arg :: rest, n => by
      have iha := lowerExpr_ownCalls env arg n
      have ihr := lowerArgs_ownCalls env rest (lowerExpr env arg n).next
      simp only [lowerArgs]
      split
      · exact iha
      · exact iha.append ihr

end

theorem ownCalls_init (env : Env) (varType : DataType) (initializer : ASTNode) (n : Nat) :
    OwnCalls n (lowerInit env varType initializer n).next
      (lowerInit env varType initializer n).code := by
  unfold lowerInit
  split
  · exact (OwnCalls.nil n).finish nofun
  · exact lowerExpr_ownCalls env initializer n

theorem ownCalls_returned (env : Env) (expression : ASTNode) (n : Nat) :
    OwnCalls n (lowerReturned env expression n).next
      (lowerReturned env expression n).code := by
  unfold lowerReturned
  split
  · exact .nil n
  · exact lowerExpr_ownCalls env expression n

theorem ownCalls_jz (condition : ASTNode) (reg label n : Nat) :
    OwnCalls n n [jzInst condition reg label] := .single n nofun

theorem ownCalls_jmp (label n : Nat) : OwnCalls n n [labelInst .jmp label] := .single n nofun

theorem ownCalls_label (label n : Nat) : OwnCalls n n [labelInst .label label] :=
  .single n nofun

mutual

theorem lowerStmt_ownCalls : ∀ (node : ASTNode) (env : Env) (c : Counters),
    OwnCalls c.vreg (lowerStmt env node c).counters.vreg (lowerStmt env node c).code
  | .null, _, c => .nil c.vreg
  | .varDecl info varName varType initializer, env, c =>
      (ownCalls_init _ varType initializer c.vreg).use nofun
  | .assignment info varName value, env, c => by
      simp only [lowerStmt]
      split
      · exact .nil c.vreg
      · refine (lowerExpr_ownCalls env value c.vreg).use ?_
        split <;> exact nofun
  | .returnStmt info expression, env, c =>
      (ownCalls_returned env expression c.vreg).use nofun
  | .block _ statements, env, c => lowerStmts_ownCalls statements env c
  | .ifStmt _ condition thenBranch elseBranch, env, c => by
      have hcond := lowerExpr_ownCalls env condition c.vreg
      simp only [lowerStmt]
      split
      · split
        · exact hcond
        · have ht := lowerStmt_ownCalls thenBranch env
            ⟨(lowerExpr env condition c.vreg).next, c.stack, c.label + 1⟩
          exact ((hcond.append (ownCalls_jz _ _ _ _)).append ht).append (ownCalls_label _ _)
      · split
        · exact hcond
        · have ht := lowerStmt_ownCalls thenBranch env
            ⟨(lowerExpr env condition c.vreg).next, c.stack, c.label + 2⟩
          exact ((((hcond.append (ownCalls_jz _ _ _ _)).append ht).append
            ((ownCalls_jmp _ _).append (ownCalls_label _ _))).append
              (lowerStmt_ownCalls elseBranch _ _)).append (ownCalls_label _ _)
  | .whileStmt _ condition body, env, c => by
      have hcond := lowerExpr_ownCalls env condition c.vreg
      simp only [lowerStmt]
      split
      · exact (ownCalls_label _ _).append hcond
      · have hb := lowerStmt_ownCalls body env
          ⟨(lowerExpr env condition c.vreg).next, c.stack, c.label + 2⟩
        exact ((((ownCalls_label _ _).append hcond).append (ownCalls_jz _ _ _ _)).append
          hb).append ((ownCalls_jmp _ _).append (ownCalls_label _ _))
  | .number info value, env, c => lowerExpr_ownCalls env (.number info value) c.vreg
  | .identifier info name, env, c => lowerExpr_ownCalls env (.identifier info name) c.vreg
  | .binary op info left right, env, c =>
      lowerExpr_ownCalls env (.binary op info left right) c.vreg
  | .unary op info operand, env, c => lowerExpr_ownCalls env (.unary op info operand) c.vreg
  | .call info name args, env, c => lowerExpr_ownCalls env (.call info name args) c.vreg
  | .function _ _ _ _ _ _, _, c => .nil c.vreg
  | .translationUnit _ _, _, c => .nil c.vreg

theorem lowerStmts_ownCalls : ∀ (nodes : List ASTNode) (env : Env) (c : Counters),
    OwnCalls c.vreg (lowerStmts env nodes c).counters.vreg (lowerStmts env nodes c).code
  | [], _, c => .nil c.vreg
  | stmt :: rest, env, c =>
      (lowerStmt_ownCalls stmt env c).append (lowerStmts_ownCalls rest _ _)

end

/-- A call does not write a parameter. -/
theorem lowerRoot_ownCalls (stack : Nat) (root : ASTNode) :
    OwnCalls (1 + root.params.length) (lowerRoot stack root).counters.vreg
      (lowerRoot stack root).code := by
  cases root with
  | function info name returnType params body isPrototype =>
    cases body with
    | block bodyInfo statements =>
      exact lowerStmts_ownCalls statements _ ⟨1 + params.length, stack, 0⟩
    | _ => exact .nil _
  | block info statements => exact lowerStmts_ownCalls statements [] ⟨1, stack, 0⟩
  | _ => exact (lowerExpr_ownCalls [] _ 1).use nofun

/-! ## From the writer to the reader -/

/-- No instruction on a way writes a register. -/
def Unwritten (code : List IRInstruction) (v : Nat) (way : List Nat) : Prop :=
  ∀ j ∈ way, ∀ inst, code[j]? = some inst → inst.defines ≠ some v

/-- No call is made on a way. -/
def CallFree (code : List IRInstruction) (way : List Nat) : Prop :=
  ∀ j ∈ way, ∀ inst, code[j]? = some inst → inst.opcode ≠ .call

/-- Control has come straight down to what is no label. -/
theorem ControlPath.from_pred {code : List IRInstruction} {visited : List Nat} {k : Nat}
    {inst : IRInstruction} (h : ControlPath code visited (k + 1))
    (hk : code[k + 1]? = some inst) (hlabel : inst.labelDef = none) :
    ∃ init, visited = init ++ [k] := by
  cases h with
  | step hpath hflow =>
    rename_i init i
    cases hflow with
    | next hi hjmp hret => exact ⟨init, rfl⟩
    | jump hi htarget hj hlabel' =>
      obtain rfl := Option.some.inj (hk.symm.trans hj)
      rw [hlabel] at hlabel'
      cases hlabel'

theorem ReadAtOnce.pred {v k : Nat} {code : List IRInstruction} {inst : IRInstruction}
    (h : ReadAtOnce v code) (hk : code[k]? = some inst) (hv : v ∈ inst.uses) :
    ∃ i d, k = i + 1 ∧ code[i]? = some d ∧ d.defines = some v := by
  obtain ⟨pre, post, rfl, rfl⟩ := split_of_getElem? hk
  obtain ⟨pre', d, rfl, hd⟩ := h pre inst post rfl hv
  exact ⟨pre'.length, d, by simp, by simp, hd⟩

theorem labelDef_of_uses {inst : IRInstruction} {v : Nat} (hv : v ∈ inst.uses) :
    inst.labelDef = none := by
  cases hop : inst.opcode with
  | label => simp [IRInstruction.uses, hop] at hv
  | _ => simp [IRInstruction.labelDef, hop]

/-- The last instruction on a way to a reader is the writer. -/
theorem ReadAtOnce.onPath {v k : Nat} {code : List IRInstruction} {visited : List Nat}
    {inst : IRInstruction} (h : ReadAtOnce v code) (hpath : ControlPath code visited k)
    (hk : code[k]? = some inst) (hv : v ∈ inst.uses) :
    ∃ init i d, visited = init ++ [i] ∧ code[i]? = some d ∧ d.defines = some v := by
  obtain ⟨i, d, rfl, hi, hd⟩ := h.pred hk hv
  obtain ⟨init, hinit⟩ := hpath.from_pred hk (labelDef_of_uses hv)
  exact ⟨init, i, d, hinit, hi, hd⟩

/-! ## The last register -/

/-- `vreg_count - 1`. -/
def IRFunction.lastVreg (f : IRFunction) : Nat := f.vregCount - 1

/-- The last register does not wait for its reader while a call is made. -/
structure LastVregSafe (f : IRFunction) : Prop where
  /-- From the instruction that writes it. -/
  written : ∀ before i between k, ControlPath f.instructions (before ++ i :: between) k →
    ∀ d, f.instructions[i]? = some d → d.defines = some f.lastVreg →
    Unwritten f.instructions f.lastVreg between →
    ∀ inst, f.instructions[k]? = some inst → f.lastVreg ∈ inst.uses →
    CallFree f.instructions between
  /-- From the entry, where a parameter has its value. -/
  entry : ∀ visited k, ControlPath f.instructions visited k →
    Unwritten f.instructions f.lastVreg visited →
    ∀ inst, f.instructions[k]? = some inst → f.lastVreg ∈ inst.uses →
    CallFree f.instructions visited
  /-- Behind a call it is written before it is read. -/
  call : ∀ before c after k, ControlPath f.instructions (before ++ c :: after) k →
    ∀ inst, f.instructions[c]? = some inst → inst.opcode = .call →
    ∀ reader, f.instructions[k]? = some reader → f.lastVreg ∈ reader.uses →
    ¬ Unwritten f.instructions f.lastVreg (c :: after)
  argument : ∀ arg ∈ f.instructions, arg.opcode = .arg → arg.src1 ≠ f.lastVreg

section

variable {p : Nat} {f : IRFunction}

/-- A function that makes a call has a register that is not a parameter. -/
theorem IRFunction.WellFormed.lastVreg_own (h : f.WellFormed p) {inst : IRInstruction}
    (hi : inst ∈ f.instructions) (hop : inst.opcode = .call) : p < f.lastVreg := by
  have := h.piece.calls inst hi hop
  unfold IRFunction.lastVreg
  omega

theorem IRFunction.WellFormed.lastVreg_readAtOnce (h : f.WellFormed p)
    (hlast : p < f.lastVreg) : ReadAtOnce f.lastVreg f.instructions := by
  unfold IRFunction.lastVreg at hlast ⊢
  exact h.piece.last _ (by omega) (by omega)

/-- Behind a call the last register is written before it is read. -/
theorem IRFunction.WellFormed.written_behind_call (h : f.WellFormed p)
    {before after : List Nat} {c k : Nat}
    (hpath : ControlPath f.instructions (before ++ c :: after) k)
    {inst : IRInstruction} (hc : f.instructions[c]? = some inst) (hop : inst.opcode = .call)
    {reader : IRInstruction} (hk : f.instructions[k]? = some reader)
    (hv : f.lastVreg ∈ reader.uses) :
    ¬ Unwritten f.instructions f.lastVreg (c :: after) := by
  intro hnone
  have hlast := h.lastVreg_own (List.mem_of_getElem? hc) hop
  obtain ⟨init, i, d, hvisited, hi, hd⟩ := (h.lastVreg_readAtOnce hlast).onPath hpath hk hv
  refine hnone i ?_ d hi hd
  have hend := congrArg List.getLast? hvisited
  rw [List.getLast?_append_of_ne_nil _ (by simp), List.getLast?_concat] at hend
  exact List.mem_of_getLast? hend

/-- Where the last register is not written, a call does not come before its reader. -/
theorem IRFunction.WellFormed.callFree (h : f.WellFormed p) {before between : List Nat}
    {k : Nat} (hpath : ControlPath f.instructions (before ++ between) k)
    (hnone : Unwritten f.instructions f.lastVreg between)
    {reader : IRInstruction} (hk : f.instructions[k]? = some reader)
    (hv : f.lastVreg ∈ reader.uses) : CallFree f.instructions between := by
  intro c hc inst hi hop
  obtain ⟨mid, after, rfl⟩ := List.append_of_mem hc
  rw [← List.append_assoc] at hpath
  exact h.written_behind_call hpath hi hop hk hv
    fun j hj => hnone j (List.mem_append_right _ hj)

/-- The call of an argument writes a later register. -/
theorem IRFunction.WellFormed.argument_ne (h : f.WellFormed p)
    (hcalls : ∀ inst ∈ f.instructions, inst.opcode = .call → p < inst.dest)
    {arg : IRInstruction} (harg : arg ∈ f.instructions) (hop : arg.opcode = .arg) :
    arg.src1 ≠ f.lastVreg := by
  intro heq
  obtain ⟨pre, post, hcode⟩ := List.append_of_mem harg
  obtain ⟨-, -, after, call, rest, -, rfl, -, hcall⟩ :=
    (argumentRows_of_scan h.piece.args).arg pre arg post hcode hop
  have hmem : call ∈ f.instructions := by simp [hcode]
  have hlast := h.lastVreg_own hmem hcall
  have huses : f.lastVreg ∈ arg.uses := by simp [IRInstruction.uses, hop, heq]
  obtain ⟨pre', d, rfl, hd⟩ :=
    h.lastVreg_readAtOnce hlast pre arg (after ++ call :: rest) hcode huses
  -- the registers are written in ascending order, and the last one before the call
  have hsorted : (ownWrites p f.instructions).Pairwise (· < ·) := by
    rw [h.piece.once]
    exact List.pairwise_lt_range'
  have hdest : call.defines = some call.dest := by simp [IRInstruction.defines, hcall]
  have hbound := h.piece.defines call hmem call.dest hdest
  have hown := hcalls call hmem hcall
  have hlt : f.lastVreg < call.dest := by
    have hsplit : f.instructions = (pre' ++ [d]) ++ (arg :: after ++ call :: rest) := by
      rw [hcode]
      simp
    rw [hsplit, ownWrites_append, List.pairwise_append] at hsorted
    refine hsorted.2.2 _ ?_ _ ?_
    · exact List.mem_filter.mpr
        ⟨mem_writtenBy.mpr ⟨d, by simp, hd⟩, decide_eq_true hlast⟩
    · exact List.mem_filter.mpr
        ⟨mem_writtenBy.mpr ⟨call, by simp, hdest⟩, decide_eq_true hown⟩
  unfold IRFunction.lastVreg at hlt
  omega

end

/-- In every function that `ir_gen` returns without an error, no call lies between a point
where the last register gets its value and an instruction that reads this value, and it is
no argument. -/
theorem irGen_lastVregSafe {fresh : IRFunction} {root : ASTNode} {errors : ErrorContext}
    {filename : Option String} {g : GenState}
    (hgen : irGen fresh root errors filename = .ok (true, g)) (herrors : g.f.errors = errors) :
    LastVregSafe g.f := by
  obtain ⟨h, hcode, -, -⟩ := irGen_wellFormed hgen herrors
  refine ⟨?_, ?_, ?_, ?_⟩
  · intro before i between k hpath d hi hd hnone reader hk hv
    rw [List.append_cons] at hpath
    exact h.callFree hpath hnone hk hv
  · intro visited k hpath hnone reader hk hv
    exact h.callFree (show ControlPath _ ([] ++ visited) k from hpath) hnone hk hv
  · intro before c after k hpath inst hc hop reader hk hv
    exact h.written_behind_call hpath hc hop hk hv
  · intro arg harg hop
    refine h.argument_ne (fun inst hi hcall => ?_) harg hop
    rw [hcode] at hi
    have := (lowerRoot_ownCalls fresh.stackCount root).calls inst hi hcall
    omega

theorem irGen_lastVregSafe_callLoop :
    ∃ g, irGen .zeroed callLoop .init none = .ok (true, g) ∧ LastVregSafe g.f := by
  obtain ⟨g, hgen, herrors, -⟩ := callLoop_generated
  exact ⟨g, hgen, irGen_lastVregSafe hgen herrors⟩

end TinyCompile.Ir
