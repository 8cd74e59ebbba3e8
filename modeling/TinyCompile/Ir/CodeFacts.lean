import TinyCompile.Ir.Facts

set_option autoImplicit false

/-!
# Ir: facts about the code of statements and functions
-/

namespace TinyCompile.Ir

open TinyCompile.Source

/-- A register that is read only by the instruction right behind one that writes it. -/
def ReadAtOnce (v : Nat) (code : List IRInstruction) : Prop :=
  ∀ pre inst post, code = pre ++ inst :: post → v ∈ inst.uses →
    ∃ pre' d, pre = pre' ++ [d] ∧ d.defines = some v

/-- The registers that are not parameters and that a piece of code writes, in order. -/
def ownWrites (p : Nat) (code : List IRInstruction) : List Nat :=
  (writtenBy code).filter fun v => decide (p < v)

theorem ownWrites_append (p : Nat) (code code' : List IRInstruction) :
    ownWrites p (code ++ code') = ownWrites p code ++ ownWrites p code' := by
  simp [ownWrites]

/-- A register that is not a parameter is read behind an instruction that writes it, and
there is no label in between. -/
def WrittenBefore (p : Nat) (code : List IRInstruction) : Prop :=
  ∀ pre inst post, code = pre ++ inst :: post → ∀ v ∈ inst.uses, p < v →
    ∃ init d mid, pre = init ++ d :: mid ∧ d.defines = some v ∧
      ∀ i ∈ mid, i.labelDef = none

theorem WrittenBefore.append {p : Nat} {code code' : List IRInstruction}
    (h : WrittenBefore p code) (h' : WrittenBefore p code') :
    WrittenBefore p (code ++ code') := by
  intro pre inst post heq v hv hp
  rcases split_append heq with ⟨mid, hcode⟩ | ⟨mid, rfl, hcode'⟩
  · exact h pre inst mid hcode v hv hp
  · obtain ⟨init, d, mid', rfl, hd, hlabels⟩ := h' mid inst post hcode' v hv hp
    exact ⟨code ++ init, d, mid', by rw [List.append_assoc], hd, hlabels⟩

/-- In code without labels a register that is written earlier is written before. -/
theorem writtenBefore_of_mem {pre : List IRInstruction} {v : Nat}
    (hv : v ∈ writtenBy pre) (hlabels : ∀ i ∈ pre, i.labelDef = none) :
    ∃ init d mid, pre = init ++ d :: mid ∧ d.defines = some v ∧
      ∀ i ∈ mid, i.labelDef = none := by
  obtain ⟨d, hmem, hd⟩ := mem_writtenBy.mp hv
  obtain ⟨init, mid, rfl⟩ := List.append_of_mem hmem
  exact ⟨init, d, mid, rfl, hd, fun i hi => hlabels i (by simp [hi])⟩

/-- Facts about a piece of code that starts with register `n` and leaves off at `next`. -/
structure Piece (p stack n next : Nat) (code : List IRInstruction) : Prop where
  params : p < n
  le : n ≤ next
  limit : next ≤ max n maxVregsPerFunction
  defines : ∀ inst ∈ code, ∀ v, inst.defines = some v →
    (1 ≤ v ∧ v ≤ p) ∨ (n ≤ v ∧ v < next)
  uses : ∀ inst ∈ code, ∀ v ∈ inst.uses, (1 ≤ v ∧ v ≤ p) ∨ (n ≤ v ∧ v < next)
  calls : ∀ inst ∈ code, inst.opcode = .call → n < next
  last : ∀ v, n ≤ v → v + 1 = next → ReadAtOnce v code
  slots : ∀ inst ∈ code, ∀ i, inst.slot = some i → i < stack
  args : argScan 0 code = some 0
  once : ownWrites p code = List.range' n (next - n)
  before : WrittenBefore p code

theorem Piece.mono {p stack stack' n next : Nat} {code : List IRInstruction}
    (h : Piece p stack n next code) (hle : stack ≤ stack') : Piece p stack' n next code :=
  { h with slots := fun inst hi i hs => Nat.lt_of_lt_of_le (h.slots inst hi i hs) hle }

theorem Piece.nil {p stack n : Nat} (h : p < n) : Piece p stack n n [] where
  params := h
  le := Nat.le_refl _
  limit := by omega
  defines := by simp
  uses := by simp
  calls := by simp
  last := by
    intro v _ _ pre inst post heq
    simp at heq
  slots := by simp
  args := rfl
  once := by simp [ownWrites]
  before := by simp [WrittenBefore]

theorem Piece.append {p stack n n' n'' : Nat} {code code' : List IRInstruction}
    (h : Piece p stack n n' code) (h' : Piece p stack n' n'' code') :
    Piece p stack n n'' (code ++ code') where
  params := h.params
  le := Nat.le_trans h.le h'.le
  limit := by
    have := h.limit
    have := h'.limit
    omega
  defines := by
    intro inst hi v hv
    have := h.le
    have := h'.le
    rcases List.mem_append.mp hi with hi | hi
    · have := h.defines inst hi v hv
      omega
    · have := h'.defines inst hi v hv
      omega
  uses := by
    intro inst hi v hv
    have := h.le
    have := h'.le
    rcases List.mem_append.mp hi with hi | hi
    · have := h.uses inst hi v hv
      omega
    · have := h'.uses inst hi v hv
      omega
  calls := by
    intro inst hi hop
    have := h.le
    have := h'.le
    rcases List.mem_append.mp hi with hi | hi
    · have := h.calls inst hi hop
      omega
    · have := h'.calls inst hi hop
      omega
  last := by
    intro v hn hv pre inst post heq hmem
    have hparams := h.params
    rcases List.append_eq_append_iff.mp heq with ⟨mid, hpre, hcode'⟩ | ⟨mid, hcode, hpost⟩
    · -- the reader is in the second piece
      have hinst : inst ∈ code' := by
        rw [hcode']
        simp
      have hbound := h'.uses inst hinst v hmem
      have hn' : n' ≤ v := by omega
      obtain ⟨pre', d, rfl, hd⟩ := h'.last v hn' hv mid inst post hcode' hmem
      exact ⟨code ++ pre', d, by rw [hpre, List.append_assoc], hd⟩
    · cases mid with
      | nil =>
        have hcode' : code' = [] ++ inst :: post := by simpa using hpost.symm
        have hinst : inst ∈ code' := by
          rw [hcode']
          simp
        have hbound := h'.uses inst hinst v hmem
        have hn' : n' ≤ v := by omega
        obtain ⟨pre', d, hnil, -⟩ := h'.last v hn' hv [] inst post hcode' hmem
        simp at hnil
      | cons x mid =>
        -- the reader is in the first piece
        have hx : x = inst := by
          have := congrArg List.head? hpost
          simpa using this.symm
        subst hx
        have hinst : x ∈ code := by
          rw [hcode]
          simp
        have hbound := h.uses x hinst v hmem
        have hle := h'.le
        have hv' : v + 1 = n' := by omega
        exact h.last v hn hv' pre x mid hcode hmem
  slots := fun inst hi => (List.mem_append.mp hi).elim (h.slots inst) (h'.slots inst)
  args := by rw [argScan_append, h.args, Option.bind_some, h'.args]
  once := by rw [ownWrites_append, h.once, h'.once, range'_sub_append h.le h'.le]
  before := h.before.append h'.before

/-- The code of an expression does not read the last register at all. -/
theorem ExprFacts.piece {p stack n next : Nat} {code : List IRInstruction}
    (h : ExprFacts p stack n code next) (hp : p < n) : Piece p stack n next code where
  params := hp
  le := h.le
  limit := h.limit
  defines := fun inst hi v hv => .inr (h.defines inst hi v hv)
  uses := by
    intro inst hi v hv
    have := h.uses inst hi v hv
    omega
  calls := by
    intro inst hi hop
    have := h.defines inst hi inst.dest (by simp [IRInstruction.defines, hop])
    omega
  last := by
    intro v hn hv pre inst post heq hmem
    have hinst : inst ∈ code := by
      rw [heq]
      simp
    have := h.uses inst hinst v hmem
    omega
  slots := h.slots
  args := h.args
  once := by
    unfold ownWrites
    rw [h.once, List.filter_eq_self]
    intro v hv
    have := (List.mem_range'_1.mp hv).1
    exact decide_eq_true (by omega)
  before := by
    intro pre inst post heq v hv hp
    refine writtenBefore_of_mem (h.before pre inst post heq v hv hp) fun i hi => ?_
    exact (h.straight i (by rw [heq]; simp [hi])).1

/-- An instruction that reads nothing, such as a label or a jump. -/
theorem Piece.single {p stack n : Nat} {inst : IRInstruction} (hp : p < n)
    (hdef : inst.defines = none) (huses : inst.uses = []) (hslot : inst.slot = none)
    (hop : inst.opcode ≠ .arg ∧ inst.opcode ≠ .call) : Piece p stack n n [inst] where
  params := hp
  le := Nat.le_refl _
  limit := by omega
  defines := by simp [hdef]
  uses := by simp [huses]
  calls := by
    intro i hi hcall
    rw [List.mem_singleton.mp hi] at hcall
    exact absurd hcall hop.2
  last := by omega
  slots := by simp [hslot]
  args := argScan_plain fun i hi => by
    rw [List.mem_singleton.mp hi]
    exact hop.1
  once := by simp [ownWrites, writtenBy, hdef]
  before := by
    intro pre i post heq v hv
    have hi : i ∈ [inst] := by
      rw [heq]
      simp
    rw [List.mem_singleton.mp hi, huses] at hv
    simp at hv

/-- An instruction that uses the value of the expression before it. -/
structure Consumes (p stack reg : Nat) (inst : IRInstruction) : Prop where
  uses : inst.uses = [reg]
  defines : ∀ v, inst.defines = some v → 1 ≤ v ∧ v ≤ p
  slot : ∀ i, inst.slot = some i → i < stack
  notArg : inst.opcode ≠ .arg
  notCall : inst.opcode ≠ .call

/-- A value in a register of its own was written by the last instruction. -/
theorem ValueIn.written {p n next reg : Nat} {code : List IRInstruction}
    (h : ValueIn p n code next reg) (h0 : reg ≠ 0) (hp : p < n) (hn : n ≤ reg) :
    ∃ init d, code = init ++ [d] ∧ d.defines = some reg := by
  cases h with
  | dropped => exact absurd rfl h0
  | param hcode hnext h1 hle => omega
  | fresh init d hcode hdef hn' hnext => exact ⟨init, d, hcode, hdef⟩

/-- An expression and the instruction that uses its value. -/
theorem ExprSound.consume {p stack n : Nat} {o : ExprOut} {inst : IRInstruction}
    (h : ExprSound p stack n o) (hp : p < n) (hreg : o.reg ≠ 0)
    (hinst : Consumes p stack o.reg inst) : Piece p stack n o.next (o.code ++ [inst]) := by
  have hpiece := h.facts.piece hp
  have hvalue := h.value.usable hreg
  refine ⟨hp, hpiece.le, hpiece.limit, ?_, ?_, ?_, ?_, ?_, ?_, ?_, ?_⟩
  · intro i hi v hv
    rcases List.mem_append.mp hi with hi | hi
    · exact hpiece.defines i hi v hv
    · rw [List.mem_singleton.mp hi] at hv
      exact .inl (hinst.defines v hv)
  · intro i hi v hv
    rcases List.mem_append.mp hi with hi | hi
    · exact hpiece.uses i hi v hv
    · rw [List.mem_singleton.mp hi, hinst.uses, List.mem_singleton] at hv
      rwa [hv]
  · intro i hi hop
    rcases List.mem_append.mp hi with hi | hi
    · exact hpiece.calls i hi hop
    · rw [List.mem_singleton.mp hi] at hop
      exact absurd hop hinst.notCall
  · intro v hn hv pre i post heq hmem
    rcases List.append_eq_append_iff.mp heq with ⟨mid, hpre, hlast⟩ | ⟨mid, hcode, hpost⟩
    · -- the reader is the consumer
      have hmid : mid = [] ∧ i = inst := by
        cases mid with
        | nil =>
          have : i = inst ∧ post = [] := by simpa using hlast.symm
          exact ⟨rfl, this.1⟩
        | cons x mid => simp at hlast
      rw [hmid.2, hinst.uses, List.mem_singleton] at hmem
      subst hmem
      obtain ⟨init, d, hcode, hdef⟩ := h.value.written hreg hp hn
      exact ⟨init, d, by rw [hpre, hmid.1, List.append_nil, hcode], hdef⟩
    · cases mid with
      | nil =>
        have hi : i = inst ∧ post = [] := by simpa using hpost
        rw [hi.1, hinst.uses, List.mem_singleton] at hmem
        subst hmem
        obtain ⟨init, d, hcode', hdef⟩ := h.value.written hreg hp hn
        exact ⟨init, d, by rw [← hcode', hcode, List.append_nil], hdef⟩
      | cons x mid =>
        have hx : i = x := by
          have := congrArg List.head? hpost
          simpa using this
        subst hx
        exact hpiece.last v hn hv pre i mid hcode hmem
  · intro i hi
    rcases List.mem_append.mp hi with hi | hi
    · exact hpiece.slots i hi
    · rw [List.mem_singleton.mp hi]
      exact hinst.slot
  · rw [argScan_append, hpiece.args, Option.bind_some]
    exact argScan_plain fun i hi => by
      rw [List.mem_singleton.mp hi]
      exact hinst.notArg
  · have hown : ownWrites p [inst] = [] := by
      refine List.filter_eq_nil_iff.mpr fun v hv => ?_
      obtain ⟨i, hi, hdef⟩ := mem_writtenBy.mp hv
      rw [List.mem_singleton.mp hi] at hdef
      have := (hinst.defines v hdef).2
      simpa using this
    rw [ownWrites_append, hown, List.append_nil, hpiece.once]
  · intro pre i post heq v hv hpv
    rcases split_append heq with ⟨mid, hcode⟩ | ⟨mid, rfl, hlast⟩
    · exact hpiece.before pre i mid hcode v hv hpv
    · -- the consumer stands right behind the expression
      obtain ⟨rfl, rfl⟩ : mid = [] ∧ i = inst := by
        cases mid with
        | nil => exact ⟨rfl, by simpa using (congrArg List.head? hlast).symm⟩
        | cons x mid => simp at hlast
      rw [hinst.uses, List.mem_singleton] at hv
      subst hv
      rw [List.append_nil]
      refine writtenBefore_of_mem ?_ fun d hd => (h.facts.straight d hd).1
      rw [h.facts.once]
      exact mem_range'_sub (by omega) (by omega)

/-! ## Statements -/

/-- What is proved of every lowered statement. -/
structure StmtSound (p : Nat) (c : Counters) (o : StmtOut) : Prop where
  piece : Piece p o.counters.stack c.vreg o.counters.vreg o.code
  stack_le : c.stack ≤ o.counters.stack
  env : EnvFits p o.counters.stack o.env

section

variable {p : Nat} {env : Env}

/-- The value of an expression, used unless it was given up. -/
theorem ExprSound.consumeIf {stack n : Nat} {o : ExprOut} {inst : IRInstruction}
    (h : ExprSound p stack n o) (hp : p < n)
    (hinst : o.reg ≠ 0 → Consumes p stack o.reg inst) :
    Piece p stack n o.next (o.code ++ if o.reg = 0 then [] else [inst]) := by
  split
  · rw [List.append_nil]
    exact h.facts.piece hp
  · rename_i hreg
    exact h.consume hp hreg (hinst hreg)

theorem lowerInit_sound {stack n : Nat} (henv : EnvFits p stack env) {varType : DataType}
    {initializer : ASTNode} (hok : ¬ OutOfVregs (lowerInit env varType initializer n).history) :
    ExprSound p stack n (lowerInit env varType initializer n) := by
  unfold lowerInit at hok ⊢
  split
  · rename_i hnull
    rw [if_pos hnull] at hok
    exact exprSound_finish .nil hok ⟨rfl, by simp [IRInstruction.uses],
      by simp [IRInstruction.slot], ⟨rfl, rfl, by simp⟩, by simp⟩
  · rename_i hnull
    rw [if_neg hnull] at hok
    exact lowerExpr_sound henv initializer n hok

theorem stmtSound_varDecl {info : NodeInfo} {varName : StringView} {varType : DataType}
    {initializer : ASTNode} {c : Counters} (hp : p < c.vreg) (henv : EnvFits p c.stack env)
    (hok : ¬ OutOfVregs (lowerStmt env (.varDecl info varName varType initializer) c).history) :
    StmtSound p c (lowerStmt env (.varDecl info varName varType initializer) c) := by
  simp only [lowerStmt] at hok ⊢
  have henv' : EnvFits p (c.stack + 1)
      ((varName, ⟨.var info.addr, varType, ⟨c.stack, true⟩⟩) :: env) :=
    (henv.mono (Nat.le_succ _)).cons (Nat.lt_succ_self _)
  have hinit := lowerInit_sound henv' fun hm => hok (List.mem_cons_of_mem _ hm)
  refine ⟨hinit.consumeIf hp fun _ => ⟨rfl, ?_, ?_, by simp, by simp⟩, Nat.le_succ _, henv'⟩
  · simp [IRInstruction.defines]
  · intro i hi
    obtain rfl : c.stack = i := by simpa [IRInstruction.slot] using hi
    exact Nat.lt_succ_self _

theorem stmtSound_assignment {info : NodeInfo} {varName : StringView} {value : ASTNode}
    {c : Counters} (hp : p < c.vreg) (henv : EnvFits p c.stack env)
    (hok : ¬ OutOfVregs (lowerStmt env (.assignment info varName value) c).history) :
    StmtSound p c (lowerStmt env (.assignment info varName value) c) := by
  simp only [lowerStmt] at hok ⊢
  cases hname : env.lookup varName with
  | none => exact ⟨.nil hp, Nat.le_refl _, henv⟩
  | some e =>
    have he := henv varName e hname
    simp only [hname] at hok ⊢
    have hvalue := lowerExpr_sound henv value c.vreg fun hm => hok (List.mem_cons_of_mem _ hm)
    refine ⟨hvalue.consumeIf hp fun _ => ?_, Nat.le_refl _, henv⟩
    cases hstack : e.binding.isStack with
    | true =>
      rw [if_pos hstack] at he
      refine ⟨rfl, by simp [IRInstruction.defines], ?_, by simp, by simp⟩
      intro i hi
      obtain rfl : e.binding.index = i := by simpa [IRInstruction.slot] using hi
      exact he
    | false =>
      rw [if_neg (by simp [hstack])] at he
      refine ⟨rfl, ?_, by simp [IRInstruction.slot], by simp, by simp⟩
      intro v hv
      obtain rfl : e.binding.index = v := by simpa [IRInstruction.defines] using hv
      exact he

theorem stmtSound_return {info : NodeInfo} {expression : ASTNode} {c : Counters}
    (hp : p < c.vreg) (henv : EnvFits p c.stack env)
    (hok : ¬ OutOfVregs (lowerStmt env (.returnStmt info expression) c).history) :
    StmtSound p c (lowerStmt env (.returnStmt info expression) c) := by
  simp only [lowerStmt] at hok ⊢
  have hvalue : ExprSound p c.stack c.vreg (lowerReturned env expression c.vreg) := by
    unfold lowerReturned at hok ⊢
    split
    · exact .dropped
    · rename_i hnull
      rw [if_neg hnull] at hok
      exact lowerExpr_sound henv expression c.vreg hok
  exact ⟨hvalue.consumeIf hp fun _ => ⟨rfl, by simp [IRInstruction.defines],
    by simp [IRInstruction.slot], by simp, by simp⟩, Nat.le_refl _, henv⟩

theorem stmtSound_expr {node : ASTNode} {c : Counters} (hp : p < c.vreg)
    (henv : EnvFits p c.stack env)
    (hlower : lowerStmt env node c = exprStmt env (lowerExpr env node c.vreg) c)
    (hok : ¬ OutOfVregs (lowerStmt env node c).history) :
    StmtSound p c (lowerStmt env node c) := by
  rw [hlower] at hok ⊢
  exact ⟨(lowerExpr_sound henv node c.vreg hok).facts.piece hp, Nat.le_refl _, henv⟩

/-- The branch of a condition. -/
theorem consumes_jz {stack reg : Nat} (condition : ASTNode) (label : Nat) :
    Consumes p stack reg (jzInst condition reg label) :=
  ⟨rfl, by simp [IRInstruction.defines, jzInst], by simp [IRInstruction.slot, jzInst],
    by simp [jzInst], by simp [jzInst]⟩

theorem piece_label {stack n : Nat} (hp : p < n) (l : Nat) :
    Piece p stack n n [labelInst .label l] :=
  .single hp rfl rfl rfl ⟨by simp [labelInst], by simp [labelInst]⟩

theorem piece_jmp (stack : Nat) {n : Nat} (hp : p < n) (l : Nat) :
    Piece p stack n n [labelInst .jmp l] :=
  .single hp rfl rfl rfl ⟨by simp [labelInst], by simp [labelInst]⟩

theorem stmtSound_if {info : NodeInfo} {condition thenBranch elseBranch : ASTNode}
    {c : Counters} (hp : p < c.vreg) (henv : EnvFits p c.stack env)
    (iht : ∀ env c, p < c.vreg → EnvFits p c.stack env →
      ¬ OutOfVregs (lowerStmt env thenBranch c).history →
      StmtSound p c (lowerStmt env thenBranch c))
    (ihe : ∀ env c, p < c.vreg → EnvFits p c.stack env →
      ¬ OutOfVregs (lowerStmt env elseBranch c).history →
      StmtSound p c (lowerStmt env elseBranch c))
    (hok : ¬ OutOfVregs
      (lowerStmt env (.ifStmt info condition thenBranch elseBranch) c).history) :
    StmtSound p c (lowerStmt env (.ifStmt info condition thenBranch elseBranch) c) := by
  simp only [lowerStmt] at hok ⊢
  set o := lowerExpr env condition c.vreg with ho
  cases hnull : elseBranch.isNull with
  | true =>
    simp only [hnull, if_true] at hok ⊢
    set c₁ : Counters := { c with vreg := o.next, label := c.label + 1 }
    by_cases hreg : o.reg = 0
    · simp only [hreg, if_true] at hok ⊢
      exact ⟨(lowerExpr_sound henv condition c.vreg hok).facts.piece hp, Nat.le_refl _, henv⟩
    · simp only [hreg, if_false] at hok ⊢
      have hcond := lowerExpr_sound henv condition c.vreg (not_outOfVregs_left hok)
      have hle := hcond.facts.le
      have ht := iht env c₁ (Nat.lt_of_lt_of_le hp hle) henv (not_outOfVregs_right hok)
      have hjz := (hcond.consume hp hreg (consumes_jz condition c.label)).mono
        ht.stack_le
      have hend := Nat.lt_of_lt_of_le hp (Nat.le_trans hle ht.piece.le)
      exact ⟨(hjz.append ht.piece).append (piece_label hend _), ht.stack_le, ht.env⟩
  | false =>
    simp only [hnull, Bool.false_eq_true, if_false] at hok ⊢
    set c₁ : Counters := { c with vreg := o.next, label := c.label + 2 }
    by_cases hreg : o.reg = 0
    · simp only [hreg, if_true] at hok ⊢
      exact ⟨(lowerExpr_sound henv condition c.vreg hok).facts.piece hp, Nat.le_refl _, henv⟩
    · simp only [hreg, if_false] at hok ⊢
      have hok₁ := not_outOfVregs_left hok
      have hcond := lowerExpr_sound henv condition c.vreg (not_outOfVregs_left hok₁)
      have hle := hcond.facts.le
      have ht := iht env c₁ (Nat.lt_of_lt_of_le hp hle) henv (not_outOfVregs_right hok₁)
      have hmid := Nat.lt_of_lt_of_le hp (Nat.le_trans hle ht.piece.le)
      have he := ihe _ _ hmid ht.env (not_outOfVregs_right hok)
      have hjz := (hcond.consume hp hreg (consumes_jz condition c.label)).mono
        (Nat.le_trans ht.stack_le he.stack_le)
      have hend := Nat.lt_of_lt_of_le hmid he.piece.le
      set t := lowerStmt env thenBranch c₁
      set e := lowerStmt t.env elseBranch t.counters
      have hjmp := (piece_jmp e.counters.stack hmid (c.label + 1)).append
        (piece_label hmid c.label)
      exact ⟨(((hjz.append (ht.piece.mono he.stack_le)).append hjmp).append he.piece).append
        (piece_label hend _), Nat.le_trans ht.stack_le he.stack_le, he.env⟩

theorem stmtSound_while {info : NodeInfo} {condition body : ASTNode}
    {c : Counters} (hp : p < c.vreg) (henv : EnvFits p c.stack env)
    (ih : ∀ env c, p < c.vreg → EnvFits p c.stack env →
      ¬ OutOfVregs (lowerStmt env body c).history → StmtSound p c (lowerStmt env body c))
    (hok : ¬ OutOfVregs (lowerStmt env (.whileStmt info condition body) c).history) :
    StmtSound p c (lowerStmt env (.whileStmt info condition body) c) := by
  simp only [lowerStmt] at hok ⊢
  set o := lowerExpr env condition c.vreg with ho
  set c₁ : Counters := { c with vreg := o.next, label := c.label + 2 }
  by_cases hreg : o.reg = 0
  · simp only [hreg, if_true] at hok ⊢
    have hcond := lowerExpr_sound henv condition c.vreg hok
    exact ⟨(piece_label hp _).append (hcond.facts.piece hp), Nat.le_refl _, henv⟩
  · simp only [hreg, if_false] at hok ⊢
    have hcond := lowerExpr_sound henv condition c.vreg (not_outOfVregs_left hok)
    have hle := hcond.facts.le
    have hb := ih env c₁ (Nat.lt_of_lt_of_le hp hle) henv (not_outOfVregs_right hok)
    have hend := Nat.lt_of_lt_of_le hp (Nat.le_trans hle hb.piece.le)
    have hjz := (hcond.consume hp hreg
      (consumes_jz condition (c.label + 1))).mono hb.stack_le
    set b := lowerStmt env body c₁
    have hjmp := (piece_jmp b.counters.stack hend c.label).append
      (piece_label hend (c.label + 1))
    refine ⟨?_, hb.stack_le, hb.env⟩
    have hall := (((piece_label hp c.label).append hjz).append hb.piece).append hjmp
    simpa [List.append_assoc] using hall

mutual

/-- The facts hold of every lowered statement. -/
theorem lowerStmt_sound : ∀ (node : ASTNode) (env : Env) (c : Counters), p < c.vreg →
    EnvFits p c.stack env → ¬ OutOfVregs (lowerStmt env node c).history →
    StmtSound p c (lowerStmt env node c)
  | .null, _, _, hp, henv, _ => ⟨.nil hp, Nat.le_refl _, henv⟩
  | .varDecl _ _ _ _, _, _, hp, henv, hok => stmtSound_varDecl hp henv hok
  | .assignment _ _ _, _, _, hp, henv, hok => stmtSound_assignment hp henv hok
  | .returnStmt _ _, _, _, hp, henv, hok => stmtSound_return hp henv hok
  | .block _ statements, env, c, hp, henv, hok => by
      have h := lowerStmts_sound statements env c hp henv hok
      exact ⟨h.piece, h.stack_le, henv.mono h.stack_le⟩
  | .ifStmt _ _ thenBranch elseBranch, _, _, hp, henv, hok =>
      stmtSound_if hp henv (lowerStmt_sound thenBranch) (lowerStmt_sound elseBranch) hok
  | .whileStmt _ _ body, _, _, hp, henv, hok =>
      stmtSound_while hp henv (lowerStmt_sound body) hok
  | .number _ _, _, _, hp, henv, hok => stmtSound_expr hp henv rfl hok
  | .identifier _ _, _, _, hp, henv, hok => stmtSound_expr hp henv rfl hok
  | .binary _ _ _ _, _, _, hp, henv, hok => stmtSound_expr hp henv rfl hok
  | .unary _ _ _, _, _, hp, henv, hok => stmtSound_expr hp henv rfl hok
  | .call _ _ _, _, _, hp, henv, hok => stmtSound_expr hp henv rfl hok
  | .function _ _ _ _ _ _, _, _, hp, henv, hok => stmtSound_expr hp henv rfl hok
  | .translationUnit _ _, _, _, hp, henv, hok => stmtSound_expr hp henv rfl hok

/-- The facts hold of the lowered statements of a block. -/
theorem lowerStmts_sound : ∀ (nodes : List ASTNode) (env : Env) (c : Counters), p < c.vreg →
    EnvFits p c.stack env → ¬ OutOfVregs (lowerStmts env nodes c).history →
    StmtSound p c (lowerStmts env nodes c)
  | [], _, _, hp, henv, _ => ⟨.nil hp, Nat.le_refl _, henv⟩
  | stmt :: rest, env, c, hp, henv, hok => by
      simp only [lowerStmts] at hok ⊢
      have hs := lowerStmt_sound stmt env c hp henv (not_outOfVregs_left hok)
      have hr := lowerStmts_sound rest _ _ (Nat.lt_of_lt_of_le hp hs.piece.le) hs.env
        (not_outOfVregs_right hok)
      exact ⟨(hs.piece.mono hr.stack_le).append hr.piece, Nat.le_trans hs.stack_le hr.stack_le,
        hr.env⟩

end

end

/-! ## Labels -/

/-- The labels that the jumps of a piece of code go to, in order. -/
def targetsOf (code : List IRInstruction) : List Nat := code.filterMap IRInstruction.target

@[simp] theorem targetsOf_nil : targetsOf [] = [] := rfl

@[simp] theorem targetsOf_append (code code' : List IRInstruction) :
    targetsOf (code ++ code') = targetsOf code ++ targetsOf code' := by
  simp [targetsOf]

/-- Code whose labels are distinct and between `lo` and `hi`, and whose jumps stay
inside. -/
structure LabelsFit (lo hi : Nat) (code : List IRInstruction) : Prop where
  le : lo ≤ hi
  range : ∀ l ∈ labelsOf code, lo ≤ l ∧ l < hi
  nodup : (labelsOf code).Nodup
  targets : ∀ l ∈ targetsOf code, l ∈ labelsOf code

/-- Code without labels and jumps. -/
theorem labels_of_plain {code : List IRInstruction}
    (h : ∀ inst ∈ code, inst.labelDef = none ∧ inst.target = none) :
    labelsOf code = [] ∧ targetsOf code = [] := by
  constructor
  · exact List.filterMap_eq_nil_iff.mpr fun inst hi => (h inst hi).1
  · exact List.filterMap_eq_nil_iff.mpr fun inst hi => (h inst hi).2

theorem LabelsFit.plain {lo hi : Nat} {code : List IRInstruction} (hle : lo ≤ hi)
    (h : labelsOf code = [] ∧ targetsOf code = []) : LabelsFit lo hi code :=
  ⟨hle, by simp [h.1], by simp [h.1], by simp [h.2]⟩

theorem LabelsFit.append {lo mid hi : Nat} {code code' : List IRInstruction}
    (h : LabelsFit lo mid code) (h' : LabelsFit mid hi code') :
    LabelsFit lo hi (code ++ code') := by
  refine ⟨Nat.le_trans h.le h'.le, ?_, ?_, ?_⟩
  · intro l hl
    rw [labelsOf_append] at hl
    have := h.le
    have := h'.le
    rcases List.mem_append.mp hl with hl | hl
    · have := h.range l hl
      omega
    · have := h'.range l hl
      omega
  · rw [labelsOf_append]
    refine List.nodup_append.mpr ⟨h.nodup, h'.nodup, ?_⟩
    rintro l hl l' hl' rfl
    have := h.range l hl
    have := h'.range l hl'
    omega
  · intro l hl
    rw [targetsOf_append] at hl
    rw [labelsOf_append]
    rcases List.mem_append.mp hl with hl | hl
    · exact List.mem_append_left _ (h.targets l hl)
    · exact List.mem_append_right _ (h'.targets l hl)

theorem finish_plain {code : List IRInstruction} {n : Nat} {history : List Event}
    {inst : Nat → IRInstruction}
    (h : ∀ i ∈ code, i.labelDef = none ∧ i.target = none)
    (hinst : ∀ reg, (inst reg).labelDef = none ∧ (inst reg).target = none) :
    ∀ i ∈ (finish code n history inst).code, i.labelDef = none ∧ i.target = none := by
  unfold finish
  split
  · exact h
  · intro i hi
    rcases List.mem_append.mp hi with hi | hi
    · exact h i hi
    · rw [List.mem_singleton.mp hi]
      exact hinst n

mutual

theorem lowerExpr_plain (env : Env) : ∀ (node : ASTNode) (n : Nat),
    ∀ inst ∈ (lowerExpr env node n).code, inst.labelDef = none ∧ inst.target = none
  | .number info value, n => by
      simp only [lowerExpr, finish]
      split <;> simp [IRInstruction.labelDef, IRInstruction.target]
  | .identifier info name, n => by
      simp only [lowerExpr, finish]
      split
      · simp
      · split
        · split <;> simp [IRInstruction.labelDef, IRInstruction.target]
        · simp
  | .unary op info operand, n => by
      have ih := lowerExpr_plain env operand n
      simp only [lowerExpr]
      split
      · exact ih
      · refine finish_plain ih ?_
        cases op <;> exact fun _ => ⟨rfl, rfl⟩
  | .binary op info left right, n => by
      have ihl := lowerExpr_plain env left n
      have ihr := lowerExpr_plain env right (lowerExpr env left n).next
      have hboth : ∀ inst ∈ (lowerExpr env left n).code ++
          (lowerExpr env right (lowerExpr env left n).next).code,
          inst.labelDef = none ∧ inst.target = none :=
        fun inst hi => (List.mem_append.mp hi).elim (ihl inst) (ihr inst)
      simp only [lowerExpr]
      split
      · exact ihl
      · split
        · exact hboth
        · refine finish_plain hboth fun reg => ?_
          cases op with
          | rshift =>
            cases hsign : typeIsUnsigned (typeOf left) <;> simp only [binaryOpcode, hsign] <;>
              exact ⟨rfl, rfl⟩
          | _ => exact ⟨rfl, rfl⟩
  | .call info functionName args, n => by
      have ih := lowerArgs_plain env args n
      simp only [lowerExpr]
      split
      · exact ih
      · refine finish_plain ?_ fun _ => ⟨rfl, rfl⟩
        intro inst hi
        rcases List.mem_append.mp hi with hi | hi
        · exact ih inst hi
        · have hop := (mem_argInsts hi).1
          simp [IRInstruction.labelDef, IRInstruction.target, hop]
  | .null, _ | .varDecl _ _ _ _, _ | .assignment _ _ _, _ | .returnStmt _ _, _
  | .ifStmt _ _ _ _, _ | .whileStmt _ _ _, _ | .block _ _, _ | .function _ _ _ _ _ _, _
  | .translationUnit _ _, _ => by simp [lowerExpr]

theorem lowerArgs_plain (env : Env) : ∀ (args : List ASTNode) (n : Nat),
    ∀ inst ∈ (lowerArgs env args n).code, inst.labelDef = none ∧ inst.target = none
  | [], n => by simp [lowerArgs]
  | arg :: rest, n => by
      have iha := lowerExpr_plain env arg n
      have ihr := lowerArgs_plain env rest (lowerExpr env arg n).next
      simp only [lowerArgs]
      split
      · exact iha
      · exact fun inst hi => (List.mem_append.mp hi).elim (iha inst) (ihr inst)

end

theorem labels_expr (env : Env) (node : ASTNode) (n : Nat) :
    labelsOf (lowerExpr env node n).code = [] ∧ targetsOf (lowerExpr env node n).code = [] :=
  labels_of_plain (lowerExpr_plain env node n)

/-- An expression and an instruction that uses its value. -/
theorem labelsFit_value {lo : Nat} {o : ExprOut} {inst : IRInstruction}
    (ho : labelsOf o.code = [] ∧ targetsOf o.code = [])
    (hinst : inst.labelDef = none ∧ inst.target = none) :
    LabelsFit lo lo (o.code ++ if o.reg = 0 then [] else [inst]) := by
  refine .plain (Nat.le_refl _) ?_
  split
  · simpa using ho
  · rw [labelsOf_append, targetsOf_append, ho.1, ho.2]
    simp [labelsOf, targetsOf, hinst.1, hinst.2]

theorem labels_finish {n : Nat} {inst : Nat → IRInstruction}
    (hinst : ∀ reg, (inst reg).labelDef = none ∧ (inst reg).target = none) :
    labelsOf (finish [] n [] inst).code = [] ∧ targetsOf (finish [] n [] inst).code = [] :=
  labels_of_plain (finish_plain (by simp) hinst)

@[simp] theorem labelsOf_jz (condition : ASTNode) (reg l : Nat) :
    labelsOf [jzInst condition reg l] = [] := rfl

@[simp] theorem targetsOf_jz (condition : ASTNode) (reg l : Nat) :
    targetsOf [jzInst condition reg l] = [l] := rfl

@[simp] theorem labelsOf_label (l : Nat) : labelsOf [labelInst .label l] = [l] := rfl

@[simp] theorem targetsOf_label (l : Nat) : targetsOf [labelInst .label l] = [] := rfl

@[simp] theorem labelsOf_jmp_label (l l' : Nat) :
    labelsOf [labelInst .jmp l, labelInst .label l'] = [l'] := rfl

@[simp] theorem targetsOf_jmp_label (l l' : Nat) :
    targetsOf [labelInst .jmp l, labelInst .label l'] = [l] := rfl

theorem labelsFit_if {env : Env} {info : NodeInfo} {condition thenBranch elseBranch : ASTNode}
    {c : Counters}
    (iht : ∀ env c, LabelsFit c.label (lowerStmt env thenBranch c).counters.label
      (lowerStmt env thenBranch c).code)
    (ihe : ∀ env c, LabelsFit c.label (lowerStmt env elseBranch c).counters.label
      (lowerStmt env elseBranch c).code) :
    LabelsFit c.label
      (lowerStmt env (.ifStmt info condition thenBranch elseBranch) c).counters.label
      (lowerStmt env (.ifStmt info condition thenBranch elseBranch) c).code := by
  have ho := labels_expr env condition c.vreg
  simp only [lowerStmt]
  set o := lowerExpr env condition c.vreg
  split
  · split
    · exact .plain (Nat.le_succ _) ho
    · set c₁ : Counters := ⟨o.next, c.stack, c.label + 1⟩ with hc₁
      have ht := iht env c₁
      set t := lowerStmt env thenBranch c₁
      have hle : c.label + 1 ≤ t.counters.label := ht.le
      have hrt : ∀ l ∈ labelsOf t.code, c.label + 1 ≤ l ∧ l < t.counters.label := ht.range
      refine ⟨by show c.label ≤ t.counters.label; omega, ?_, ?_, ?_⟩
      · intro l hl
        simp only [labelsOf_append, ho.1, labelsOf_jz, labelsOf_label, List.nil_append,
          List.mem_append, List.mem_singleton] at hl
        show c.label ≤ l ∧ l < t.counters.label
        rcases hl with hl | rfl
        · have := hrt l hl
          omega
        · omega
      · simp only [labelsOf_append, ho.1, labelsOf_jz, labelsOf_label, List.nil_append]
        refine List.nodup_append.mpr ⟨ht.nodup, by simp, ?_⟩
        intro l hl l' hl'
        have := hrt l hl
        have := List.mem_singleton.mp hl'
        omega
      · intro l hl
        simp only [targetsOf_append, ho.2, targetsOf_jz, targetsOf_label, List.nil_append,
          List.append_nil, List.mem_append, List.mem_singleton] at hl
        simp only [labelsOf_append, ho.1, labelsOf_jz, labelsOf_label, List.nil_append,
          List.mem_append, List.mem_singleton]
        exact hl.elim .inr fun hl => .inl (ht.targets l hl)
  · split
    · exact .plain (by show c.label ≤ c.label + 2; omega) ho
    · set c₁ : Counters := ⟨o.next, c.stack, c.label + 2⟩ with hc₁
      have ht := iht env c₁
      set t := lowerStmt env thenBranch c₁
      have he := ihe t.env t.counters
      set e := lowerStmt t.env elseBranch t.counters
      have hle : c.label + 2 ≤ t.counters.label := ht.le
      have hle' := he.le
      have hrt : ∀ l ∈ labelsOf t.code, c.label + 2 ≤ l ∧ l < t.counters.label := ht.range
      have hre := he.range
      refine ⟨by show c.label ≤ e.counters.label; omega, ?_, ?_, ?_⟩
      · intro l hl
        simp only [labelsOf_append, ho.1, labelsOf_jz, labelsOf_jmp_label, labelsOf_label,
          List.nil_append, List.mem_append, List.mem_singleton] at hl
        show c.label ≤ l ∧ l < e.counters.label
        rcases hl with ((hl | rfl) | hl) | rfl
        · have := hrt l hl
          omega
        · omega
        · have := hre l hl
          omega
        · omega
      · simp only [labelsOf_append, ho.1, labelsOf_jz, labelsOf_jmp_label, labelsOf_label,
          List.nil_append]
        refine List.nodup_append.mpr ⟨List.nodup_append.mpr
          ⟨List.nodup_append.mpr ⟨ht.nodup, by simp, ?_⟩, he.nodup, ?_⟩, by simp, ?_⟩
        · intro l hl l' hl'
          have := hrt l hl
          have := List.mem_singleton.mp hl'
          omega
        · intro l hl l' hl'
          have := hre l' hl'
          rcases List.mem_append.mp hl with hl | hl
          · have := hrt l hl
            omega
          · have := List.mem_singleton.mp hl
            omega
        · intro l hl l' hl'
          have := List.mem_singleton.mp hl'
          rcases List.mem_append.mp hl with hl | hl
          · rcases List.mem_append.mp hl with hl | hl
            · have := hrt l hl
              omega
            · have := List.mem_singleton.mp hl
              omega
          · have := hre l hl
            omega
      · intro l hl
        simp only [targetsOf_append, ho.2, targetsOf_jz, targetsOf_jmp_label, targetsOf_label,
          List.nil_append, List.append_nil, List.mem_append, List.mem_singleton] at hl
        simp only [labelsOf_append, ho.1, labelsOf_jz, labelsOf_jmp_label, labelsOf_label,
          List.nil_append, List.mem_append, List.mem_singleton]
        rcases hl with ((rfl | hl) | rfl) | hl
        · exact .inl (.inl (.inr rfl))
        · exact .inl (.inl (.inl (ht.targets l hl)))
        · exact .inr rfl
        · exact .inl (.inr (he.targets l hl))

theorem labelsFit_while {env : Env} {info : NodeInfo} {condition body : ASTNode}
    {c : Counters}
    (ih : ∀ env c, LabelsFit c.label (lowerStmt env body c).counters.label
      (lowerStmt env body c).code) :
    LabelsFit c.label (lowerStmt env (.whileStmt info condition body) c).counters.label
      (lowerStmt env (.whileStmt info condition body) c).code := by
  have ho := labels_expr env condition c.vreg
  simp only [lowerStmt]
  set o := lowerExpr env condition c.vreg
  split
  · have hlabels : labelsOf (labelInst .label c.label :: o.code) = [c.label] := by
      rw [← List.singleton_append, labelsOf_append, ho.1]
      rfl
    have htargets : targetsOf (labelInst .label c.label :: o.code) = [] := by
      rw [← List.singleton_append, targetsOf_append, ho.2]
      rfl
    refine ⟨by show c.label ≤ c.label + 2; omega, ?_, by simp [hlabels], by simp [htargets]⟩
    intro l hl
    rw [hlabels, List.mem_singleton] at hl
    show c.label ≤ l ∧ l < c.label + 2
    omega
  · set c₁ : Counters := ⟨o.next, c.stack, c.label + 2⟩ with hc₁
    have hb := ih env c₁
    set b := lowerStmt env body c₁
    have hle : c.label + 2 ≤ b.counters.label := hb.le
    have hrb : ∀ l ∈ labelsOf b.code, c.label + 2 ≤ l ∧ l < b.counters.label := hb.range
    refine ⟨by show c.label ≤ b.counters.label; omega, ?_, ?_, ?_⟩
    · intro l hl
      simp only [labelsOf_append, ho.1, labelsOf_jz, labelsOf_jmp_label, labelsOf_label,
        List.append_nil, List.mem_append, List.mem_singleton] at hl
      show c.label ≤ l ∧ l < b.counters.label
      rcases hl with (rfl | hl) | rfl
      · omega
      · have := hrb l hl
        omega
      · omega
    · simp only [labelsOf_append, ho.1, labelsOf_jz, labelsOf_jmp_label, labelsOf_label,
        List.append_nil]
      refine List.nodup_append.mpr ⟨List.nodup_append.mpr ⟨by simp, hb.nodup, ?_⟩, by simp, ?_⟩
      · intro l hl l' hl'
        have := hrb l' hl'
        have := List.mem_singleton.mp hl
        omega
      · intro l hl l' hl'
        have := List.mem_singleton.mp hl'
        rcases List.mem_append.mp hl with hl | hl
        · have := List.mem_singleton.mp hl
          omega
        · have := hrb l hl
          omega
    · intro l hl
      simp only [targetsOf_append, ho.2, targetsOf_jz, targetsOf_jmp_label, targetsOf_label,
        List.nil_append, List.mem_append, List.mem_singleton] at hl
      simp only [labelsOf_append, ho.1, labelsOf_jz, labelsOf_jmp_label, labelsOf_label,
        List.append_nil, List.mem_append, List.mem_singleton]
      rcases hl with (rfl | hl) | rfl
      · exact .inr rfl
      · exact .inl (.inr (hb.targets l hl))
      · exact .inl (.inl rfl)

mutual

/-- The labels of a statement are numbered by the label counter. -/
theorem lowerStmt_labels : ∀ (node : ASTNode) (env : Env) (c : Counters),
    LabelsFit c.label (lowerStmt env node c).counters.label (lowerStmt env node c).code
  | .null, _, _ => .plain (Nat.le_refl _) ⟨rfl, rfl⟩
  | .varDecl info varName varType initializer, env, c => by
      simp only [lowerStmt]
      refine labelsFit_value ?_ ⟨rfl, rfl⟩
      unfold lowerInit
      split
      · exact labels_finish fun _ => ⟨rfl, rfl⟩
      · exact labels_expr _ initializer c.vreg
  | .assignment info varName value, env, c => by
      simp only [lowerStmt]
      split
      · exact .plain (Nat.le_refl _) ⟨rfl, rfl⟩
      · refine labelsFit_value (labels_expr env value c.vreg) ?_
        split <;> exact ⟨rfl, rfl⟩
  | .returnStmt info expression, env, c => by
      simp only [lowerStmt]
      refine labelsFit_value ?_ ⟨rfl, rfl⟩
      unfold lowerReturned
      split
      · exact ⟨rfl, rfl⟩
      · exact labels_expr env expression c.vreg
  | .block _ statements, env, c => lowerStmts_labels statements env c
  | .ifStmt _ _ thenBranch elseBranch, _, _ =>
      labelsFit_if (lowerStmt_labels thenBranch) (lowerStmt_labels elseBranch)
  | .whileStmt _ _ body, _, _ => labelsFit_while (lowerStmt_labels body)
  | .number _ _, _, _ => .plain (Nat.le_refl _) (labels_expr _ _ _)
  | .identifier _ _, _, _ => .plain (Nat.le_refl _) (labels_expr _ _ _)
  | .binary _ _ _ _, _, _ => .plain (Nat.le_refl _) (labels_expr _ _ _)
  | .unary _ _ _, _, _ => .plain (Nat.le_refl _) (labels_expr _ _ _)
  | .call _ _ _, _, _ => .plain (Nat.le_refl _) (labels_expr _ _ _)
  | .function _ _ _ _ _ _, _, _ => .plain (Nat.le_refl _) (labels_expr _ _ _)
  | .translationUnit _ _, _, _ => .plain (Nat.le_refl _) (labels_expr _ _ _)

theorem lowerStmts_labels : ∀ (nodes : List ASTNode) (env : Env) (c : Counters),
    LabelsFit c.label (lowerStmts env nodes c).counters.label (lowerStmts env nodes c).code
  | [], _, _ => .plain (Nat.le_refl _) ⟨rfl, rfl⟩
  | stmt :: rest, env, c =>
      (lowerStmt_labels stmt env c).append (lowerStmts_labels rest _ _)

end

/-! ## Functions -/

theorem envFits_params {p stack : Nat} {env : Env} (params : List Parameter) (i : Nat)
    (h : EnvFits p stack env) (hi : i + params.length ≤ p) :
    EnvFits p stack (paramEnv env params i) := by
  induction params generalizing env i with
  | nil => exact h
  | cons param rest ih =>
    rw [List.length_cons] at hi
    refine ih (i + 1) (h.cons ?_) (by omega)
    show 1 ≤ i + 1 ∧ i + 1 ≤ p
    omega

/-- The labels of a root, whatever its registers. -/
theorem lowerRoot_labels (stack : Nat) (root : ASTNode) :
    LabelsFit 0 (lowerRoot stack root).counters.label (lowerRoot stack root).code := by
  cases root with
  | function info name returnType params body isPrototype =>
    cases body with
    | block bodyInfo statements =>
      exact lowerStmts_labels statements _ ⟨1 + params.length, stack, 0⟩
    | _ => exact .plain (Nat.le_refl _) ⟨rfl, rfl⟩
  | block info statements => exact lowerStmts_labels statements [] ⟨1, stack, 0⟩
  | _ => exact labelsFit_value (labels_expr [] _ 1) ⟨rfl, rfl⟩

theorem lowerRoot_piece {stack : Nat} {root : ASTNode}
    (hok : ¬ OutOfVregs (lowerRoot stack root).history) :
    Piece root.params.length (lowerRoot stack root).counters.stack (1 + root.params.length)
      (lowerRoot stack root).counters.vreg (lowerRoot stack root).code := by
  have hempty : EnvFits 0 stack [] := fun name e he => by simp at he
  have hexpr : ∀ node : ASTNode, ¬ OutOfVregs (lowerExpr [] node 1).history →
      Piece 0 stack 1 (lowerExpr [] node 1).next ((lowerExpr [] node 1).code ++
        if (lowerExpr [] node 1).reg = 0 then []
        else [{ opcode := .ret, type := typeOf node, src1 := (lowerExpr [] node 1).reg }]) := by
    intro node hok
    exact (lowerExpr_sound hempty node 1 hok).consumeIf (by omega) fun _ => ⟨rfl,
      by simp [IRInstruction.defines], by simp [IRInstruction.slot], by simp, by simp⟩
  cases root with
  | function info name returnType params body isPrototype =>
    have henv : EnvFits params.length stack (paramEnv [] params 0) := by
      refine envFits_params params 0 ?_ (by omega)
      exact fun name e he => by simp at he
    cases body with
    | block bodyInfo statements =>
      have h := lowerStmts_sound statements _ ⟨1 + params.length, stack, 0⟩
        (show params.length < 1 + params.length by omega) henv hok
      exact h.piece
    | _ => exact .nil (by show params.length < 1 + params.length; omega)
  | block info statements =>
    have h := lowerStmts_sound statements [] ⟨1, stack, 0⟩ (by show 0 < 1; omega) hempty hok
    exact h.piece
  | _ => exact hexpr _ hok

end TinyCompile.Ir
