import TinyCompile.Ir.Meaning

set_option autoImplicit false

/-!
# Ir: the code of an expression computes its value

By induction on the expression: the code leaves the value in the register of the
expression, and it changes no register below the first one it may take.
-/

namespace TinyCompile.Ir

open TinyCompile.Machine TinyCompile.Source TinyCompile.Logic

/-- A run stands where the store says: parameters in the first `p` registers, locals in the
slots, no arguments collected. -/
structure Agrees (p : Nat) (m : Store) (s : RunState) : Prop where
  params : ∀ i, 1 ≤ i → i ≤ p → s.regs i = m.params i
  slots : s.slots = m.slots
  args : s.args = []
  calls : s.calls = m.calls

/-- Registers below `n` are the same. -/
def KeepsBelow (n : Nat) (s s' : RunState) : Prop := ∀ r, r < n → s'.regs r = s.regs r

theorem KeepsBelow.refl (n : Nat) (s : RunState) : KeepsBelow n s s := fun _ _ => rfl

theorem KeepsBelow.trans {n : Nat} {s s' s'' : RunState} (h : KeepsBelow n s s')
    (h' : KeepsBelow n s' s'') : KeepsBelow n s s'' :=
  fun r hr => (h' r hr).trans (h r hr)

theorem KeepsBelow.mono {n n' : Nat} {s s' : RunState} (h : KeepsBelow n' s s') (hle : n ≤ n') :
    KeepsBelow n s s' :=
  fun r hr => h r (Nat.lt_of_lt_of_le hr hle)

theorem keepsBelow_setReg {n : Nat} (s : RunState) (v : Word) : KeepsBelow n s (s.setReg n v) :=
  fun _ hr => setReg_regs_of_ne s n v (Nat.ne_of_lt hr)

/-- A register above the parameters is free. -/
theorem Agrees.setReg {p n : Nat} {m : Store} {s : RunState} (h : Agrees p m s) (hn : p < n)
    (v : Word) : Agrees p m (s.setReg n v) where
  params := fun i h1 hp => by
    rw [setReg_regs_of_ne s n v (by omega)]
    exact h.params i h1 hp
  slots := h.slots
  args := h.args
  calls := h.calls

/-- What a register and a value given up have in common. -/
def HoldsValue (s : RunState) (reg : Nat) : Option Word → Prop
  | some v => reg ≠ 0 ∧ s.regs reg = v
  | none => reg = 0

/-- The code does what the evaluation says, and leaves the value where `holds` tells. -/
def Computes {α : Type} (oracle : Oracle) (p n : Nat) (code : List IRInstruction)
    (holds : RunState → Option α → Prop) (x : Evaluation α) (s : RunState) : Prop :=
  match x with
  | none => execAll oracle code s = none
  | some (v, m) => ∃ s', execAll oracle code s = some s' ∧ Agrees p m s' ∧ KeepsBelow n s s' ∧
      holds s' v

section

variable {oracle : Oracle} {p n n' : Nat} {code code' : List IRInstruction} {s : RunState}

/-- Code behind code that computes a value. -/
theorem Computes.seq {α β : Type} {holds : RunState → Option α → Prop}
    {holds' : RunState → Option β → Prop} {x : Evaluation α} {f : α → Store → Evaluation β}
    (hle : n ≤ n') (h : Computes oracle p n code holds x s)
    (hgiven : ∀ s' m, Agrees p m s' → KeepsBelow n s s' → holds s' none →
      code' = [] ∧ holds' s' none)
    (hvalue : ∀ s' m v, Agrees p m s' → KeepsBelow n s s' → holds s' (some v) →
      Computes oracle p n' code' holds' (f v m) s') :
    Computes oracle p n (code ++ code') holds' (x.withValue f) s := by
  match x, h with
  | none, h =>
    show execAll oracle (code ++ code') s = none
    rw [execAll_append, show execAll oracle code s = none from h]
    rfl
  | some (none, m), h =>
    obtain ⟨s', hexec, hagrees, hkeeps, hholds⟩ := h
    obtain ⟨rfl, hholds'⟩ := hgiven s' m hagrees hkeeps hholds
    exact ⟨s', by rw [List.append_nil, hexec], hagrees, hkeeps, hholds'⟩
  | some (some v, m), h =>
    obtain ⟨s', hexec, hagrees, hkeeps, hholds⟩ := h
    have hrest := hvalue s' m v hagrees hkeeps hholds
    show Computes oracle p n (code ++ code') holds' (f v m) s
    unfold Computes at hrest ⊢
    rw [execAll_append, hexec, Option.bind_some]
    split at hrest
    · exact hrest
    · obtain ⟨s'', hexec', hagrees', hkeeps', hholds'⟩ := hrest
      exact ⟨s'', hexec', hagrees', hkeeps.trans (hkeeps'.mono hle), hholds'⟩

/-- What is made of a value without code. -/
theorem Computes.map {α β : Type} {holds : RunState → Option α → Prop}
    {holds' : RunState → Option β → Prop} {x : Evaluation α} {f : α → Store → Evaluation β}
    (h : Computes oracle p n code holds x s)
    (hgiven : ∀ s', KeepsBelow n s s' → holds s' none → holds' s' none)
    (hvalue : ∀ s' m v, Agrees p m s' → KeepsBelow n s s' → holds s' (some v) →
      Computes oracle p n [] holds' (f v m) s') :
    Computes oracle p n code holds' (x.withValue f) s := by
  have hseq : Computes oracle p n (code ++ []) holds' (x.withValue f) s :=
    h.seq (Nat.le_refl n) (fun s' _ _ hkeeps hnone => ⟨rfl, hgiven s' hkeeps hnone⟩) hvalue
  rwa [List.append_nil] at hseq

/-- Where there is no value nothing follows. -/
theorem Computes.givenUp {reg : Nat} {x : Evaluation Word} {f : Word → Store → Evaluation Word}
    (h : Computes oracle p n code (fun s' => HoldsValue s' reg) x s) (hreg : reg = 0) :
    Computes oracle p n code (fun s' => HoldsValue s' reg) (x.withValue f) s :=
  h.map (fun _ _ hnone => hnone) fun _ _ _ _ _ hsome => absurd hreg hsome.1

/-- An instruction that computes a value into the next free register. -/
theorem computes_inst {m : Store} {inst : IRInstruction} {r : Option Word} (h : Agrees p m s)
    (hn : p < n) (hexec : execInst oracle inst s = r.map (s.setReg n)) :
    Computes oracle p n [inst] (fun s' => HoldsValue s' n) (r.map fun v => (some v, m)) s := by
  unfold Computes
  rw [execAll_one, hexec]
  cases r with
  | none => rfl
  | some v =>
    refine ⟨s.setReg n v, rfl, h.setReg hn v, keepsBelow_setReg s v, ?_, ?_⟩
    · exact Nat.ne_of_gt (Nat.lt_of_le_of_lt (Nat.zero_le p) hn)
    · exact setReg_regs_same s n v

end

/-! ## The cases -/

/-- `finish` while registers are left. -/
theorem finish_eq {code : List IRInstruction} {next : Nat} {history : List Event}
    {inst : Nat → IRInstruction} (hok : ¬ OutOfVregs (finish code next history inst).history) :
    finish code next history inst = ⟨code ++ [inst next], next, next + 1, history⟩ := by
  unfold finish at hok ⊢
  split
  · rename_i hfull
    rw [if_pos hfull] at hok
    exact absurd (by simp [OutOfVregs]) hok
  · rfl

theorem execInst_unary {oracle : Oracle} {op : UnaryOp} {type : DataType} {dest src : Nat}
    {s : RunState} : execInst oracle
      { opcode := unaryOpcode op, type := type, dest := dest, src1 := src } s =
      (evalOp (s.regs src) 0 (unaryOpcode op)).map (s.setReg dest) := by
  cases op <;> rfl

theorem execInst_binary {oracle : Oracle} {op : BinaryOp} {type leftType : DataType}
    {dest src src' : Nat} {s : RunState} : execInst oracle
      { opcode := binaryOpcode op leftType, type := type, dest := dest, src1 := src,
        src2 := src' } s =
      (evalOp (s.regs src) (s.regs src') (binaryOpcode op leftType)).map (s.setReg dest) := by
  cases op with
  | rshift => cases hsign : typeIsUnsigned leftType <;> simp only [binaryOpcode, hsign] <;> rfl
  | _ => rfl

/-- The values in a list of registers. -/
def HoldValues (s : RunState) : Option (List Nat) → Option (List Word) → Prop
  | some regs, some vs => regs.map s.regs = vs
  | none, none => True
  | _, _ => False

theorem exec_argInsts {oracle : Oracle} (pairs : List (ASTNode × Nat)) (i : Nat) (s : RunState) :
    execAll oracle (argInsts pairs i) s =
      some { s with args := s.args ++ pairs.map fun pair => s.regs pair.2 } := by
  induction pairs generalizing i s with
  | nil => simp [argInsts, execAll]
  | cons pair pairs ih =>
    show (execInst oracle _ s).bind (execAll oracle (argInsts pairs (i + 1))) = _
    refine (ih (i + 1) { s with args := s.args ++ [s.regs pair.2] }).trans ?_
    simp

section

variable {oracle : Oracle} {p stack : Nat} {env : Env}

attribute [local simp] evalExpr evalArgs

/-- What is proved of every expression. -/
def ExprRuns (oracle : Oracle) (p : Nat) (env : Env) (node : ASTNode) : Prop :=
  ∀ n s m, p < n → ¬ OutOfVregs (lowerExpr env node n).history → Agrees p m s →
    Computes oracle p n (lowerExpr env node n).code
      (fun s' => HoldsValue s' (lowerExpr env node n).reg) (evalExpr oracle env node m) s

/-- What is proved of the arguments of a call. -/
def ArgsRun (oracle : Oracle) (p : Nat) (env : Env) (args : List ASTNode) : Prop :=
  ∀ n s m, p < n → ¬ OutOfVregs (lowerArgs env args n).history → Agrees p m s →
    Computes oracle p n (lowerArgs env args n).code
      (fun s' => HoldValues s' (lowerArgs env args n).regs) (evalArgs oracle env args m) s

/-- An expression that gives up without code. -/
theorem exprRuns_dropped {node : ASTNode} (hlower : ∀ n, (lowerExpr env node n).code = [] ∧
    (lowerExpr env node n).reg = 0) (heval : ∀ m, evalExpr oracle env node m = some (none, m)) :
    ExprRuns oracle p env node := by
  intro n s m hn hok h
  rw [(hlower n).1, (hlower n).2, heval m]
  exact ⟨s, rfl, h, .refl n s, rfl⟩

theorem exprRuns_number (info : NodeInfo) (value : StringView) :
    ExprRuns oracle p env (.number info value) := by
  intro n s m hn hok h
  simp only [lowerExpr] at hok ⊢
  rw [finish_eq hok]
  exact computes_inst (r := some (svToInt64 value)) h hn rfl

theorem exprRuns_identifier (henv : EnvFits p stack env) (info : NodeInfo) (name : StringView) :
    ExprRuns oracle p env (.identifier info name) := by
  intro n s m hn hok h
  simp only [lowerExpr, evalExpr] at hok ⊢
  cases hname : env.lookup name with
  | none => exact ⟨s, rfl, h, .refl n s, rfl⟩
  | some e =>
    have he := henv name e hname
    simp only [hname, Option.map_some] at hok ⊢
    split
    · rename_i hstack
      rw [if_pos hstack] at hok
      have hread : m.read e.binding info.valueType =
          loadSlot (typeSize info.valueType) (s.slots e.binding.index) := by
        unfold Store.read
        rw [if_pos hstack, h.slots]
      rw [finish_eq hok, hread]
      exact computes_inst (r := some _) h hn rfl
    · rename_i hstack
      rw [if_neg hstack] at he
      have hread : m.read e.binding info.valueType = m.params e.binding.index := by
        unfold Store.read
        rw [if_neg hstack]
      rw [hread]
      exact ⟨s, rfl, h, .refl n s, Nat.ne_of_gt he.1, h.params _ he.1 he.2⟩

theorem exprRuns_unary (henv : EnvFits p stack env) {operand : ASTNode} (op : UnaryOp)
    (info : NodeInfo) (ih : ExprRuns oracle p env operand) :
    ExprRuns oracle p env (.unary op info operand) := by
  intro n s m hn hok h
  simp only [lowerExpr, evalExpr] at hok ⊢
  split
  · rename_i hzero
    rw [if_pos hzero] at hok
    exact (ih n s m hn hok h).givenUp hzero
  · rename_i hreg
    rw [if_neg hreg] at hok
    have hok' := not_outOfVregs_finish hok
    have hle := (lowerExpr_sound henv operand n hok').facts.le
    rw [finish_eq hok]
    refine (ih n s m hn hok' h).seq hle (fun _ _ _ _ hnone => absurd hnone hreg) ?_
    intro s' m' v hagrees hkeeps hv
    refine computes_inst hagrees (Nat.lt_of_lt_of_le hn hle) ?_
    rw [execInst_unary, hv.2]

theorem exprRuns_binary (henv : EnvFits p stack env) {left right : ASTNode} (op : BinaryOp)
    (info : NodeInfo) (ihl : ExprRuns oracle p env left) (ihr : ExprRuns oracle p env right) :
    ExprRuns oracle p env (.binary op info left right) := by
  intro n s m hn hok h
  simp only [lowerExpr, evalExpr] at hok ⊢
  split
  · rename_i hzero
    rw [if_pos hzero] at hok
    exact (ihl n s m hn hok h).givenUp hzero
  · rename_i hlreg
    rw [if_neg hlreg] at hok
    split
    · rename_i hzero
      rw [if_pos hzero] at hok
      have hsound := lowerExpr_sound henv left n (not_outOfVregs_left hok)
      refine (ihl n s m hn (not_outOfVregs_left hok) h).seq hsound.facts.le
        (fun _ _ _ _ hnone => absurd hnone hlreg) ?_
      intro s' m' v hagrees hkeeps hv
      have hr := ihr _ s' m' (Nat.lt_of_lt_of_le hn hsound.facts.le) (not_outOfVregs_right hok)
        hagrees
      rw [hzero] at hr
      exact hr.givenUp rfl
    · rename_i hrreg
      rw [if_neg hrreg] at hok
      have hok' := not_outOfVregs_finish hok
      have hsound := lowerExpr_sound henv left n (not_outOfVregs_left hok')
      have hsound' := lowerExpr_sound henv right _ (not_outOfVregs_right hok')
      rw [finish_eq hok, List.append_assoc]
      refine (ihl n s m hn (not_outOfVregs_left hok') h).seq hsound.facts.le
        (fun _ _ _ _ hnone => absurd hnone hlreg) ?_
      intro s₁ m₁ a hagrees hkeeps ha
      have hn' := Nat.lt_of_lt_of_le hn hsound.facts.le
      refine (ihr _ s₁ m₁ hn' (not_outOfVregs_right hok') hagrees).seq hsound'.facts.le
        (fun _ _ _ _ hnone => absurd hnone hrreg) ?_
      intro s₂ m₂ b hagrees₂ hkeeps₂ hb
      refine computes_inst hagrees₂ (Nat.lt_of_lt_of_le hn' hsound'.facts.le) ?_
      -- the right operand leaves the register of the left one alone
      have hbelow : (lowerExpr env left n).reg < (lowerExpr env left n).next := by
        have := hsound.value.usable hlreg
        have := hsound.facts.le
        omega
      rw [execInst_binary, hb.2, hkeeps₂ _ hbelow, ha.2]

/-- A call with its arguments collected. -/
theorem computes_call {n : Nat} {code : List IRInstruction} {s : RunState} {m : Store}
    {call : Call} {inst : IRInstruction} (h : Agrees p m s) (hn : p < n)
    (hargs : execAll oracle code s = some { s with args := call.args })
    (hinst : inst = { opcode := .call, type := inst.type, dest := n, funcName := call.name }) :
    Computes oracle p n (code ++ [inst]) (fun s' => HoldsValue s' n)
      ((oracle call).map fun v => (some v, { m with calls := m.calls ++ [call] })) s := by
  have hexec : execAll oracle (code ++ [inst]) s = (oracle call).map fun v =>
      ({ s with args := [], calls := s.calls ++ [call] } : RunState).setReg n v := by
    rw [execAll_append, hargs, Option.bind_some, execAll_one, hinst]
    show (oracle call).bind _ = _
    cases oracle call <;> rfl
  unfold Computes
  rw [hexec]
  cases oracle call with
  | none => rfl
  | some v =>
    have hagrees : Agrees p { m with calls := m.calls ++ [call] }
        { s with args := [], calls := s.calls ++ [call] } :=
      ⟨h.params, h.slots, rfl, by rw [h.calls]⟩
    refine ⟨_, rfl, hagrees.setReg hn v, keepsBelow_setReg _ v, ?_, ?_⟩
    · exact Nat.ne_of_gt (Nat.lt_of_le_of_lt (Nat.zero_le p) hn)
    · exact setReg_regs_same _ n v

theorem argsRun_cons (henv : EnvFits p stack env) {arg : ASTNode} {rest : List ASTNode}
    (ih : ExprRuns oracle p env arg) (ihs : ArgsRun oracle p env rest) :
    ArgsRun oracle p env (arg :: rest) := by
  intro n s m hn hok h
  simp only [lowerArgs, evalArgs] at hok ⊢
  split
  · rename_i hzero
    rw [if_pos hzero] at hok
    exact (ih n s m hn hok h).map (fun _ _ _ => trivial) fun _ _ _ _ _ hsome =>
      absurd hzero hsome.1
  · rename_i hreg
    rw [if_neg hreg] at hok
    have hsound := lowerExpr_sound henv arg n (not_outOfVregs_left hok)
    refine (ih n s m hn (not_outOfVregs_left hok) h).seq hsound.facts.le
      (fun _ _ _ _ hnone => absurd hnone hreg) ?_
    intro s₁ m₁ v hagrees hkeeps hv
    have hrest := ihs _ s₁ m₁ (Nat.lt_of_lt_of_le hn hsound.facts.le) (not_outOfVregs_right hok)
      hagrees
    have hbelow : (lowerExpr env arg n).reg < (lowerExpr env arg n).next := by
      have := hsound.value.usable hreg
      have := hsound.facts.le
      omega
    generalize (lowerArgs env rest (lowerExpr env arg n).next).regs = regs at hrest ⊢
    refine hrest.map (fun s₂ _ hnone => ?_) fun s₂ m₂ vs hagrees₂ hkeeps₂ hvs => ?_
    · cases regs with
      | none => trivial
      | some regs => exact hnone.elim
    · cases regs with
      | none => exact hvs.elim
      | some regs =>
        -- the registers of the other arguments are taken behind that of the first
        have hfirst : s₂.regs (lowerExpr env arg n).reg = v := (hkeeps₂ _ hbelow).trans hv.2
        have hrest' : regs.map s₂.regs = vs := hvs
        refine ⟨s₂, rfl, hagrees₂, .refl _ _, ?_⟩
        show ((lowerExpr env arg n).reg :: regs).map s₂.regs = v :: vs
        rw [List.map_cons, hfirst, hrest']

theorem exprRuns_call (henv : EnvFits p stack env) {args : List ASTNode} (info : NodeInfo)
    (functionName : StringView) (ih : ArgsRun oracle p env args) :
    ExprRuns oracle p env (.call info functionName args) := by
  intro n s m hn hok h
  simp only [lowerExpr, evalExpr] at hok ⊢
  cases hregs : (lowerArgs env args n).regs with
  | none =>
    simp only [hregs] at hok ⊢
    have hargs := ih n s m hn hok h
    rw [hregs] at hargs
    exact hargs.map (fun _ _ _ => rfl) fun _ _ _ _ _ hsome => hsome.elim
  | some regs =>
    simp only [hregs] at hok ⊢
    have hok' := not_outOfVregs_finish hok
    have hsound := lowerArgs_sound henv args n hok'
    have hargs := ih n s m hn hok' h
    rw [hregs] at hargs
    rw [finish_eq hok, List.append_assoc]
    refine hargs.seq hsound.facts.le (fun _ _ _ _ hnone => hnone.elim) ?_
    intro s' m' vs hagrees hkeeps hvs
    have hlen : regs.length ≤ args.length := Nat.le_of_eq (hsound.regs regs hregs).1
    have hvalues : (args.zip regs).map (fun pair => s'.regs pair.2) = vs := by
      have hmap : (args.zip regs).map (fun pair => s'.regs pair.2) =
          ((args.zip regs).map Prod.snd).map s'.regs := by
        rw [List.map_map]
        rfl
      rw [hmap, List.map_snd_zip hlen]
      exact hvs
    refine computes_call hagrees (Nat.lt_of_lt_of_le hn hsound.facts.le) ?_ rfl
    rw [exec_argInsts, hagrees.args, List.nil_append, hvalues]

mutual

/-- The code of every expression computes its value. -/
theorem lowerExpr_runs (oracle : Oracle) (henv : EnvFits p stack env) :
    ∀ node : ASTNode, ExprRuns oracle p env node
  | .null => exprRuns_dropped (fun _ => ⟨rfl, rfl⟩) fun _ => rfl
  | .number info value => exprRuns_number info value
  | .identifier info name => exprRuns_identifier henv info name
  | .unary op info operand => exprRuns_unary henv op info (lowerExpr_runs oracle henv operand)
  | .binary op info left right =>
      exprRuns_binary henv op info (lowerExpr_runs oracle henv left)
        (lowerExpr_runs oracle henv right)
  | .call info functionName args =>
      exprRuns_call henv info functionName (lowerArgs_run oracle henv args)
  | .varDecl _ _ _ _ => exprRuns_dropped (fun _ => ⟨rfl, rfl⟩) fun _ => rfl
  | .assignment _ _ _ => exprRuns_dropped (fun _ => ⟨rfl, rfl⟩) fun _ => rfl
  | .returnStmt _ _ => exprRuns_dropped (fun _ => ⟨rfl, rfl⟩) fun _ => rfl
  | .ifStmt _ _ _ _ => exprRuns_dropped (fun _ => ⟨rfl, rfl⟩) fun _ => rfl
  | .whileStmt _ _ _ => exprRuns_dropped (fun _ => ⟨rfl, rfl⟩) fun _ => rfl
  | .block _ _ => exprRuns_dropped (fun _ => ⟨rfl, rfl⟩) fun _ => rfl
  | .function _ _ _ _ _ _ => exprRuns_dropped (fun _ => ⟨rfl, rfl⟩) fun _ => rfl
  | .translationUnit _ _ => exprRuns_dropped (fun _ => ⟨rfl, rfl⟩) fun _ => rfl

/-- The code of the arguments of a call computes their values. -/
theorem lowerArgs_run (oracle : Oracle) (henv : EnvFits p stack env) :
    ∀ args : List ASTNode, ArgsRun oracle p env args
  | [] => fun n s _ _ _ h => ⟨s, rfl, h, .refl n s, rfl⟩
  | arg :: rest =>
      argsRun_cons henv (lowerExpr_runs oracle henv arg) (lowerArgs_run oracle henv rest)

end

end

end TinyCompile.Ir
