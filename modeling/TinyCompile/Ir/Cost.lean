import TinyCompile.Ir.Scopes

set_option autoImplicit false

/-!
# Ir: what an expression costs

The registers and the instructions of an expression are counted on the tree, whatever the
first free register is.
-/

namespace TinyCompile.Ir

open TinyCompile.Source

mutual

/-- The registers of an expression, where an argument instruction counts nothing, or its
instructions, where one counts `arg = 1`. -/
def cost (env : Env) (arg : Nat) : ASTNode → Nat
  | .number _ _ => 1
  | .identifier _ name =>
      match env.lookup name with
      | some e => if e.binding.isStack then 1 else 0
      | none => 0
  | .call _ _ args => costAll env arg args + 1
  | .unary _ _ operand => cost env arg operand + 1
  | .binary _ _ left right => cost env arg left + cost env arg right + 1
  | _ => 0

/-- The cost of the arguments of a call. -/
def costAll (env : Env) (arg : Nat) : List ASTNode → Nat
  | [] => 0
  | node :: rest => cost env arg node + arg + costAll env arg rest

end

/-- Nothing was given up. -/
def Quiet (history : List Event) : Prop := ∀ reason, Event.drop reason ∉ history

theorem quiet_nil : Quiet [] := fun _ h => nomatch h

theorem Quiet.append {history history' : List Event} (h : Quiet history) (h' : Quiet history') :
    Quiet (history ++ history') := fun reason hmem =>
  (List.mem_append.mp hmem).elim (h reason) (h' reason)

theorem Quiet.hasVregs {history : List Event} (h : Quiet history) : ¬ OutOfVregs history :=
  h .vregLimit

theorem quiet_resolved (node : Nat) (binding : SymbolTable.Binding) :
    Quiet [.resolved node binding] := by
  intro reason hmem
  cases List.mem_singleton.mp hmem

/-- An expression that is not given up takes some registers and instructions. -/
structure Takes (o : ExprOut) (n regs insts : Nat) : Prop where
  next : o.next = n + regs
  length : o.code.length = insts
  quiet : Quiet o.history

theorem takes_finish {code : List IRInstruction} {reg next n regs insts : Nat}
    {history : List Event} {inst : Nat → IRInstruction}
    (h : Takes ⟨code, reg, next, history⟩ n regs insts)
    (hok : ¬ OutOfVregs (finish code next history inst).history) :
    Takes (finish code next history inst) n (regs + 1) (insts + 1) := by
  unfold finish at hok ⊢
  split
  · rename_i hfull
    rw [if_pos hfull] at hok
    exact absurd (by simp [OutOfVregs]) hok
  · refine ⟨?_, ?_, h.quiet⟩
    · have hnext : next = n + regs := h.next
      show next + 1 = n + (regs + 1)
      rw [hnext, Nat.add_assoc]
    · have hlength : code.length = insts := h.length
      rw [List.length_append, hlength]
      rfl

theorem length_argInsts (pairs : List (ASTNode × Nat)) (i : Nat) :
    (argInsts pairs i).length = pairs.length := by
  induction pairs generalizing i with
  | nil => rfl
  | cons pair pairs ih =>
    obtain ⟨arg, reg⟩ := pair
    rw [argInsts, List.length_cons, List.length_cons, ih]

section

variable {p stack : Nat} {env : Env}

/-! ## What is taken -/

mutual

/-- An expression that is not given up takes what it costs. -/
theorem lowerExpr_takes (henv : EnvFits p stack env) : ∀ (node : ASTNode) (n : Nat), p < n →
    hasValue env node = true → ¬ OutOfVregs (lowerExpr env node n).history →
    Takes (lowerExpr env node n) n (cost env 0 node) (cost env 1 node)
  | .number info value, n, _, _, hok => by
      simp only [lowerExpr] at hok ⊢
      have hnil : Takes ⟨[], 0, n, []⟩ n 0 0 := ⟨rfl, rfl, quiet_nil⟩
      exact takes_finish hnil hok
  | .identifier info name, n, _, hvalue, hok => by
      obtain ⟨e, hname⟩ := Option.isSome_iff_exists.mp hvalue
      simp only [lowerExpr, cost, hname] at hok ⊢
      split
      · rename_i hstack
        rw [if_pos hstack] at hok
        have hnil : Takes ⟨[], 0, n, [.resolved info.addr e.binding]⟩ n 0 0 :=
          ⟨rfl, rfl, quiet_resolved _ _⟩
        exact takes_finish hnil hok
      · exact ⟨rfl, rfl, quiet_resolved _ _⟩
  | .unary op info operand, n, hn, hvalue, hok => by
      have hreg := lowerExpr_reg henv operand n hn
      simp only [lowerExpr] at hok ⊢
      by_cases hzero : (lowerExpr env operand n).reg = 0
      · rw [if_pos hzero] at hok
        exact absurd hzero ((hreg hok).mpr hvalue)
      · rw [if_neg hzero] at hok ⊢
        exact takes_finish (lowerExpr_takes henv operand n hn hvalue
          (not_outOfVregs_finish hok)) hok
  | .binary op info left right, n, hn, hvalue, hok => by
      obtain ⟨hleft, hright⟩ := Bool.and_eq_true_iff.mp hvalue
      have hlreg := lowerExpr_reg henv left n hn
      have hrreg := lowerExpr_reg henv right
      have ihl := lowerExpr_takes henv left n hn hleft
      have hsound := lowerExpr_sound henv left n
      simp only [lowerExpr] at hok ⊢
      set l := lowerExpr env left n
      by_cases hzero : l.reg = 0
      · rw [if_pos hzero] at hok
        exact absurd hzero ((hlreg hok).mpr hleft)
      · rw [if_neg hzero] at hok ⊢
        by_cases hzero' : (lowerExpr env right l.next).reg = 0
        · rw [if_pos hzero'] at hok
          have hn' := Nat.lt_of_lt_of_le hn (hsound (not_outOfVregs_left hok)).facts.le
          exact absurd hzero' ((hrreg _ hn' (not_outOfVregs_right hok)).mpr hright)
        · rw [if_neg hzero'] at hok ⊢
          have hok' := not_outOfVregs_finish hok
          have hok₁ := not_outOfVregs_left hok'
          have hn' := Nat.lt_of_lt_of_le hn (hsound hok₁).facts.le
          have hl := ihl hok₁
          have hr := lowerExpr_takes henv right l.next hn' hright (not_outOfVregs_right hok')
          have hboth : Takes ⟨l.code ++ (lowerExpr env right l.next).code, 0,
              (lowerExpr env right l.next).next,
              l.history ++ (lowerExpr env right l.next).history⟩ n
              (cost env 0 left + cost env 0 right) (cost env 1 left + cost env 1 right) := by
            refine ⟨?_, ?_, hl.quiet.append hr.quiet⟩
            · rw [hr.next, hl.next, Nat.add_assoc]
            · rw [List.length_append, hl.length, hr.length]
          exact takes_finish hboth hok
  | .call info functionName args, n, hn, hvalue, hok => by
      have hregs := lowerArgs_regs henv args n hn
      have ih := lowerArgs_takes henv args n hn hvalue
      have hsound := lowerArgs_sound henv args n
      simp only [lowerExpr] at hok ⊢
      cases hsome : (lowerArgs env args n).regs with
      | none =>
        simp only [hsome] at hok
        rw [hsome] at hregs
        exact absurd ((hregs hok).mpr hvalue) nofun
      | some regs =>
        simp only [hsome] at hok ⊢
        have hok' := not_outOfVregs_finish hok
        obtain ⟨hnext, hlength, hquiet⟩ := ih hok'
        have hargs : Takes ⟨(lowerArgs env args n).code ++ argInsts (args.zip regs) 0, 0,
            (lowerArgs env args n).next, (lowerArgs env args n).history⟩ n
            (costAll env 0 args) (costAll env 1 args) := by
          refine ⟨hnext, ?_, hquiet⟩
          rw [List.length_append, length_argInsts, List.length_zip,
            ((hsound hok').regs regs hsome).1, Nat.min_self, hlength]
        exact takes_finish hargs hok

/-- The arguments of a call take what they cost, less the argument instructions. -/
theorem lowerArgs_takes (henv : EnvFits p stack env) : ∀ (args : List ASTNode) (n : Nat), p < n →
    haveValues env args = true → ¬ OutOfVregs (lowerArgs env args n).history →
    (lowerArgs env args n).next = n + costAll env 0 args ∧
      (lowerArgs env args n).code.length + args.length = costAll env 1 args ∧
      Quiet (lowerArgs env args n).history
  | [], _, _, _, _ => ⟨rfl, rfl, quiet_nil⟩
  | arg :: rest, n, hn, hvalues, hok => by
      obtain ⟨harg, hrest⟩ := Bool.and_eq_true_iff.mp hvalues
      have hreg := lowerExpr_reg henv arg n hn
      have ih := lowerExpr_takes henv arg n hn harg
      have hsound := lowerExpr_sound henv arg n
      simp only [lowerArgs, costAll] at hok ⊢
      set o := lowerExpr env arg n
      by_cases hzero : o.reg = 0
      · rw [if_pos hzero] at hok
        exact absurd hzero ((hreg hok).mpr harg)
      · rw [if_neg hzero] at hok ⊢
        have hok₁ := not_outOfVregs_left hok
        have hn' := Nat.lt_of_lt_of_le hn (hsound hok₁).facts.le
        have hfirst := ih hok₁
        obtain ⟨hnext, hlength, hquiet⟩ :=
          lowerArgs_takes henv rest o.next hn' hrest (not_outOfVregs_right hok)
        refine ⟨?_, ?_, hfirst.quiet.append hquiet⟩
        · rw [hnext, hfirst.next]
          omega
        · rw [List.length_append, hfirst.length, List.length_cons, ← hlength]
          omega

end

/-! ## Enough registers -/

theorem finish_room {code : List IRInstruction} {next : Nat} {history : List Event}
    {inst : Nat → IRInstruction} (h : ¬ OutOfVregs history) (hroom : next < maxVregsPerFunction) :
    ¬ OutOfVregs (finish code next history inst).history := by
  unfold finish
  rw [if_neg (Nat.not_le_of_lt hroom)]
  exact h

theorem not_outOfVregs_append {history history' : List Event} (h : ¬ OutOfVregs history)
    (h' : ¬ OutOfVregs history') : ¬ OutOfVregs (history ++ history') := fun hmem =>
  (List.mem_append.mp hmem).elim h h'

mutual

/-- Where there are the registers an expression costs, they do not run out. -/
theorem lowerExpr_room (henv : EnvFits p stack env) : ∀ (node : ASTNode) (n : Nat), p < n →
    hasValue env node = true → n + cost env 0 node ≤ maxVregsPerFunction →
    ¬ OutOfVregs (lowerExpr env node n).history
  | .number info value, n, _, _, hroom => finish_room quiet_nil.hasVregs hroom
  | .identifier info name, n, _, hvalue, hroom => by
      obtain ⟨e, hname⟩ := Option.isSome_iff_exists.mp hvalue
      simp only [lowerExpr, cost, hname] at hroom ⊢
      split
      · rename_i hstack
        rw [if_pos hstack] at hroom
        exact finish_room (quiet_resolved _ _).hasVregs hroom
      · exact (quiet_resolved _ _).hasVregs
  | .unary op info operand, n, hn, hvalue, hroom => by
      have hcost : n + (cost env 0 operand + 1) ≤ maxVregsPerFunction := hroom
      have ih := lowerExpr_room henv operand n hn hvalue (by omega)
      have htakes := lowerExpr_takes henv operand n hn hvalue ih
      simp only [lowerExpr]
      split
      · exact ih
      · refine finish_room ih ?_
        rw [htakes.next]
        omega
  | .binary op info left right, n, hn, hvalue, hroom => by
      obtain ⟨hleft, hright⟩ := Bool.and_eq_true_iff.mp hvalue
      have hcost : n + (cost env 0 left + cost env 0 right + 1) ≤ maxVregsPerFunction := hroom
      have ihl := lowerExpr_room henv left n hn hleft (by omega)
      have hl := lowerExpr_takes henv left n hn hleft ihl
      have hn' := Nat.lt_of_lt_of_le hn (lowerExpr_sound henv left n ihl).facts.le
      have ihr := lowerExpr_room henv right _ hn' hright (by rw [hl.next]; omega)
      have hr := lowerExpr_takes henv right _ hn' hright ihr
      simp only [lowerExpr]
      split
      · exact ihl
      · split
        · exact not_outOfVregs_append ihl ihr
        · refine finish_room (not_outOfVregs_append ihl ihr) ?_
          rw [hr.next, hl.next]
          omega
  | .call info functionName args, n, hn, hvalue, hroom => by
      have hcost : n + (costAll env 0 args + 1) ≤ maxVregsPerFunction := hroom
      have ih := lowerArgs_room henv args n hn hvalue (by omega)
      have hnext := (lowerArgs_takes henv args n hn hvalue ih).1
      simp only [lowerExpr]
      split
      · exact ih
      · refine finish_room ih ?_
        rw [hnext]
        omega

theorem lowerArgs_room (henv : EnvFits p stack env) : ∀ (args : List ASTNode) (n : Nat), p < n →
    haveValues env args = true → n + costAll env 0 args ≤ maxVregsPerFunction →
    ¬ OutOfVregs (lowerArgs env args n).history
  | [], _, _, _, _ => quiet_nil.hasVregs
  | arg :: rest, n, hn, hvalues, hroom => by
      obtain ⟨harg, hrest⟩ := Bool.and_eq_true_iff.mp hvalues
      have hcost : n + (cost env 0 arg + 0 + costAll env 0 rest) ≤ maxVregsPerFunction := hroom
      have ih := lowerExpr_room henv arg n hn harg (by omega)
      have hfirst := lowerExpr_takes henv arg n hn harg ih
      have hn' := Nat.lt_of_lt_of_le hn (lowerExpr_sound henv arg n ih).facts.le
      have ihs := lowerArgs_room henv rest _ hn' hrest (by rw [hfirst.next]; omega)
      simp only [lowerArgs]
      split
      · exact ih
      · exact not_outOfVregs_append ih ihs

end

/-- The registers of an expression are enough exactly where it fits behind those taken. -/
theorem outOfVregs_iff (henv : EnvFits p stack env) {node : ASTNode} {n : Nat} (hn : p < n)
    (hle : n ≤ maxVregsPerFunction) (hvalue : hasValue env node = true) :
    OutOfVregs (lowerExpr env node n).history ↔ maxVregsPerFunction < n + cost env 0 node := by
  constructor
  · intro hout
    rw [← Nat.not_le]
    exact fun hroom => lowerExpr_room henv node n hn hvalue hroom hout
  · intro hfull
    refine Decidable.byContradiction fun hok => ?_
    have hnext := (lowerExpr_takes henv node n hn hvalue hok).next
    have hlimit := (lowerExpr_sound henv node n hok).facts.limit
    rw [Nat.max_eq_right hle, hnext] at hlimit
    exact Nat.not_lt_of_le hlimit hfull

end

end TinyCompile.Ir
