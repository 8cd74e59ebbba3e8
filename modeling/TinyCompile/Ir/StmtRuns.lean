import TinyCompile.Ir.ExprRuns
import TinyCompile.Ir.Scopes

set_option autoImplicit false

/-!
# Ir: the code of a statement does what the statement does

Both directions at once: where the statement comes to an end the run of its code comes to
the same one, and where the run comes to a result the statement comes to an end.  The first
is by induction on the turns of a loop, the second on the steps of the run.
-/

namespace TinyCompile.Ir

open TinyCompile.Machine TinyCompile.Source TinyCompile.Logic

section

variable (oracle : Oracle) (code : List IRInstruction) (p : Nat)

/-- The run comes to the end of a statement. -/
def ReachesOutcome (c : Config) (pc : Nat) : Outcome → Prop
  | .next m => ∃ s, Agrees p m s ∧ Leads (runStep oracle code) c (pc, s)
  | .returned v m => ∃ s, Agrees p m s ∧ Results (runStep oracle code) c (v, s)

/-- The code between two positions does what `x` does, given enough fuel. -/
structure Follows (x : Nat → Option Outcome) (pc pc' : Nat) (s : RunState) : Prop where
  forward : ∀ fuel o, x fuel = some o → ReachesOutcome oracle code p (pc, s) pc' o
  backward : ∀ n w, iterate (runStep oracle code) n (pc, s) = some w → ∃ fuel o, x fuel = some o
  mono : ∀ fuel fuel' o, fuel ≤ fuel' → x fuel = some o → x fuel' = some o

end

section

variable {oracle : Oracle} {code seg : List IRInstruction} {p pc pc₁ pc' : Nat}
  {x : Nat → Option Outcome} {s : RunState}

theorem ReachesOutcome.behind {c c' : Config} {o : Outcome} (h : Leads (runStep oracle code) c c')
    (ho : ReachesOutcome oracle code p c' pc o) : ReachesOutcome oracle code p c pc o := by
  cases o with
  | next m =>
    obtain ⟨s, hagrees, hleads⟩ := ho
    exact ⟨s, hagrees, h.trans hleads⟩
  | returned v m =>
    obtain ⟨s, hagrees, hresults⟩ := ho
    exact ⟨s, hagrees, h.results hresults⟩

/-! ## The rules -/

/-- A statement that does nothing more. -/
theorem Follows.next {m : Store} (h : Agrees p m s) :
    Follows oracle code p (fun _ => some (.next m)) pc pc s where
  forward := by
    rintro fuel o ho
    cases ho
    exact ⟨s, h, .refl _⟩
  backward := fun _ _ _ => ⟨0, _, rfl⟩
  mono := fun _ _ _ _ ho => ho

/-- A statement that returns. -/
theorem Follows.returned {m : Store} {v : Word} (h : Agrees p m s)
    (hresults : Results (runStep oracle code) (pc, s) (v, s)) :
    Follows oracle code p (fun _ => some (.returned v m)) pc pc' s where
  forward := by
    rintro fuel o ho
    cases ho
    exact ⟨s, h, hresults⟩
  backward := fun _ _ _ => ⟨0, _, rfl⟩
  mono := fun _ _ _ _ ho => ho

/-- Instructions before the code. -/
theorem Follows.behind {s₁ : RunState} (hlead : Leads (runStep oracle code) (pc, s) (pc₁, s₁))
    (h : Follows oracle code p x pc₁ pc' s₁) : Follows oracle code p x pc pc' s where
  forward := fun fuel o ho => (h.forward fuel o ho).behind hlead
  backward := fun n w hn => by
    obtain ⟨m, -, hm⟩ := hlead.iterate hn
    exact h.backward m w hm
  mono := h.mono

/-- Instructions behind the code. -/
theorem Follows.before (hlead : ∀ s', Leads (runStep oracle code) (pc₁, s') (pc', s'))
    (h : Follows oracle code p x pc pc₁ s) : Follows oracle code p x pc pc' s where
  forward := by
    intro fuel o ho
    have hreach := h.forward fuel o ho
    cases o with
    | next m =>
      obtain ⟨s', hagrees, hleads⟩ := hreach
      exact ⟨s', hagrees, hleads.trans (hlead s')⟩
    | returned v m => exact hreach
  backward := h.backward
  mono := h.mono

/-- One statement behind another. -/
theorem Follows.seq {y : Nat → Store → Option Outcome} (h : Follows oracle code p x pc pc₁ s)
    (hy : ∀ m s', Agrees p m s' → Follows oracle code p (fun fuel => y fuel m) pc₁ pc' s') :
    Follows oracle code p (fun fuel => Outcome.andThen (x fuel) (y fuel)) pc pc' s where
  forward := by
    intro fuel o ho
    obtain ⟨o₁, hx, hrest⟩ := Option.bind_eq_some_iff.mp ho
    have hreach := h.forward fuel o₁ hx
    cases o₁ with
    | next m =>
      obtain ⟨s', hagrees, hleads⟩ := hreach
      exact ((hy m s' hagrees).forward fuel o hrest).behind hleads
    | returned v m =>
      cases hrest
      exact hreach
  backward := by
    intro n w hn
    obtain ⟨fuel, o, hx⟩ := h.backward n w hn
    cases o with
    | next m =>
      obtain ⟨s', hagrees, hleads⟩ := h.forward fuel _ hx
      obtain ⟨k, -, hk⟩ := hleads.iterate hn
      obtain ⟨fuel', o', hy'⟩ := (hy m s' hagrees).backward k w hk
      refine ⟨max fuel fuel', o', ?_⟩
      unfold Outcome.andThen
      rw [h.mono fuel _ _ (Nat.le_max_left _ _) hx]
      exact (hy m s' hagrees).mono fuel' _ o' (Nat.le_max_right _ _) hy'
    | returned v m =>
      refine ⟨fuel, .returned v m, ?_⟩
      unfold Outcome.andThen
      rw [hx]
      rfl
  mono := by
    intro fuel fuel' o hle ho
    obtain ⟨o₁, hx, hrest⟩ := Option.bind_eq_some_iff.mp ho
    unfold Outcome.andThen
    rw [h.mono fuel fuel' o₁ hle hx]
    cases o₁ with
    | next m =>
      obtain ⟨s', hagrees, -⟩ := h.forward fuel _ hx
      exact (hy m s' hagrees).mono fuel fuel' o hle hrest
    | returned v m => exact hrest

/-- The code of an expression, and what is done with its value. -/
theorem Follows.value {n reg : Nat} {e : Evaluation Word} {f : Nat → Word → Store → Option Outcome}
    (hstands : StandsAt code pc seg) (hstraight : Straight seg)
    (hcomp : Computes oracle p n seg (fun s' => HoldsValue s' reg) e s)
    (hgiven : reg = 0 → pc' = pc + seg.length)
    (hvalue : ∀ v m s', Agrees p m s' → reg ≠ 0 → s'.regs reg = v →
      Follows oracle code p (fun fuel => f fuel v m) (pc + seg.length) pc' s') :
    Follows oracle code p (fun fuel => withValue e (f fuel)) pc pc' s := by
  match e, hcomp with
  | none, hcomp =>
    have hstuck := stuck_execAll oracle hstands hstraight hcomp
    refine ⟨nofun, fun n w hn => ?_, fun _ _ _ _ ho => ho⟩
    exact absurd ⟨n, hn⟩ (hstuck w)
  | some (none, m), hcomp =>
    obtain ⟨s', hexec, hagrees, -, hzero⟩ := hcomp
    have hlead := leads_execAll oracle hstands hstraight hexec
    rw [hgiven hzero]
    refine ⟨?_, fun _ _ _ => ⟨0, _, rfl⟩, fun _ _ _ _ ho => ho⟩
    rintro fuel o ho
    cases ho
    exact ⟨s', hagrees, hlead⟩
  | some (some v, m), hcomp =>
    obtain ⟨s', hexec, hagrees, -, hreg, hv⟩ := hcomp
    have hlead := leads_execAll oracle hstands hstraight hexec
    have hrest := hvalue v m s' hagrees hreg hv
    refine ⟨fun fuel o ho => (hrest.forward fuel o ho).behind hlead, fun n w hn => ?_, hrest.mono⟩
    obtain ⟨k, -, hk⟩ := hlead.iterate hn
    exact hrest.backward k w hk

/-! ## Loops -/

/-- The turns of a loop, given enough fuel, do what the code of the loop does between its
first and its last label. -/
structure LoopFollows (oracle : Oracle) (code : List IRInstruction) (p : Nat)
    (turn : Nat → Store → Option (Turn Store Outcome)) (pc pc' : Nat) : Prop where
  forward : ∀ fuel m s r, Agrees p m s → turn fuel m = some r →
    match r with
    | .again m' => ∃ s', Agrees p m' s' ∧ Leads (runStep oracle code) (pc, s) (pc, s')
    | .leave o => ReachesOutcome oracle code p (pc, s) pc' o
  backward : ∀ n w m s, Agrees p m s → iterate (runStep oracle code) n (pc, s) = some w →
    ∃ fuel r, turn fuel m = some r ∧ ∀ m', r = .again m' →
      ∃ s' k, Agrees p m' s' ∧ k < n ∧ iterate (runStep oracle code) k (pc, s') = some w
  mono : ∀ fuel fuel' m r, fuel ≤ fuel' → turn fuel m = some r → turn fuel' m = some r

theorem LoopFollows.follows {turn : Nat → Store → Option (Turn Store Outcome)} {m : Store}
    (h : LoopFollows oracle code p turn pc pc') (hs : Agrees p m s) :
    Follows oracle code p (fun fuel => iterate (turn fuel) fuel m) pc pc' s where
  forward := by
    intro fuel o ho
    -- on the turns that are left
    have hturns : ∀ k m s, Agrees p m s → iterate (turn fuel) k m = some o →
        ReachesOutcome oracle code p (pc, s) pc' o := by
      intro k
      induction k with
      | zero => exact fun _ _ _ hk => nomatch hk
      | succ k ih =>
        intro m s hs hk
        obtain ⟨k', hk', hleave | ⟨m', hagain, hrest⟩⟩ := iterate_cases hk
        · exact h.forward fuel m s _ hs hleave
        · obtain rfl : k = k' := by omega
          obtain ⟨s', hs', hlead⟩ := h.forward fuel m s _ hs hagain
          exact (ih m' s' hs' hrest).behind hlead
    exact hturns fuel m s hs ho
  backward := by
    intro n w hn
    -- on the steps that are left
    induction n using Nat.strong_induction_on generalizing m s with
    | _ n ih =>
      obtain ⟨fuel, r, hr, hagain⟩ := h.backward n w m s hs hn
      cases r with
      | leave o =>
        refine ⟨fuel + 1, o, iterate_leave ?_⟩
        exact h.mono fuel _ m _ (Nat.le_succ fuel) hr
      | again m' =>
        obtain ⟨s', k, hs', hk, hrest⟩ := hagain m' rfl
        obtain ⟨fuel', o, ho⟩ := ih k hk hs' hrest
        refine ⟨max fuel fuel' + 1, o, ?_⟩
        have hle : fuel ≤ max fuel fuel' + 1 := by omega
        have hle' : fuel' ≤ max fuel fuel' + 1 := by omega
        rw [iterate_again (h.mono fuel _ m _ hle hr)]
        refine iterate_mono (iterate_mono_turn (fun v r hv => ?_) ho) (Nat.le_max_right _ _)
        exact h.mono fuel' _ v r hle' hv
  mono := by
    intro fuel fuel' o hle ho
    refine iterate_mono (iterate_mono_turn (fun v r hv => ?_) ho) hle
    exact h.mono fuel fuel' v r hle hv

end

/-! ## The statements -/

section

variable {oracle : Oracle} {code : List IRInstruction} {p : Nat}

attribute [local simp] evalStmt evalStmts

/-- What is proved of every statement. -/
def StmtRuns (oracle : Oracle) (code : List IRInstruction) (p : Nat) (node : ASTNode) : Prop :=
  ∀ env c pc s m, p < c.vreg → EnvFits p c.stack env →
    ¬ OutOfVregs (lowerStmt env node c).history → StandsAt code pc (lowerStmt env node c).code →
    Agrees p m s → Follows oracle code p (fun fuel => evalStmt oracle fuel env node c.stack m) pc
      (pc + (lowerStmt env node c).code.length) s

/-- What is proved of the statements of a block. -/
def StmtsRun (oracle : Oracle) (code : List IRInstruction) (p : Nat) (nodes : List ASTNode) :
    Prop :=
  ∀ env c pc s m, p < c.vreg → EnvFits p c.stack env →
    ¬ OutOfVregs (lowerStmts env nodes c).history →
    StandsAt code pc (lowerStmts env nodes c).code → Agrees p m s →
    Follows oracle code p (fun fuel => evalStmts oracle fuel env nodes c.stack m) pc
      (pc + (lowerStmts env nodes c).code.length) s

theorem ExprFacts.isStraight {stack n next : Nat} {seg : List IRInstruction}
    (h : ExprFacts p stack n seg next) : Straight seg :=
  fun inst hi => (h.straight inst hi).2

/-- A value, and one instruction that does something with it. -/
theorem Follows.consume {n stack pc : Nat} {o : ExprOut} {s : RunState} {e : Evaluation Word}
    {f : Word → Store → Option Outcome} {last : List IRInstruction} (hsound : ExprSound p stack n o)
    (hcomp : Computes oracle p n o.code (fun s' => HoldsValue s' o.reg) e s)
    (hstands : StandsAt code pc (o.code ++ if o.reg = 0 then [] else last))
    (hlast : ∀ v m s', Agrees p m s' → s'.regs o.reg = v →
      StandsAt code (pc + o.code.length) last →
      Follows oracle code p (fun _ => f v m) (pc + o.code.length)
        (pc + o.code.length + last.length) s') :
    Follows oracle code p (fun _ => withValue e f) pc
      (pc + (o.code ++ if o.reg = 0 then [] else last).length) s := by
  refine Follows.value (f := fun _ => f) hstands.left hsound.facts.isStraight hcomp ?_ ?_
  · intro hreg
    rw [if_pos hreg, List.append_nil]
  · intro v m s' hagrees hreg hv
    have hright := hstands.right
    rw [if_neg hreg] at hright ⊢
    rw [List.length_append, ← Nat.add_assoc]
    exact hlast v m s' hagrees hv hright

theorem stmtRuns_expr {node : ASTNode}
    (hlower : ∀ env c, lowerStmt env node c = exprStmt env (lowerExpr env node c.vreg) c)
    (heval : ∀ fuel env stack m, evalStmt oracle fuel env node stack m =
      withValue (evalExpr oracle env node m) fun _ m => some (.next m)) :
    StmtRuns oracle code p node := by
  intro env c pc s m hp henv hok hstands h
  rw [hlower] at hok hstands ⊢
  simp only [heval]
  have hsound := lowerExpr_sound henv node c.vreg hok
  refine Follows.value (f := fun _ _ m => some (.next m)) hstands hsound.facts.isStraight
    (lowerExpr_runs oracle henv node c.vreg s m hp hok h) (fun _ => rfl) ?_
  exact fun v m' s' hagrees _ _ => .next hagrees

/-- A value, and one instruction that changes the store. -/
theorem Follows.consumeStep {n stack pc : Nat} {o : ExprOut} {s : RunState} {e : Evaluation Word}
    {f : Word → Store → Store} {inst : IRInstruction} (hsound : ExprSound p stack n o)
    (hcomp : Computes oracle p n o.code (fun s' => HoldsValue s' o.reg) e s)
    (hstands : StandsAt code pc (o.code ++ if o.reg = 0 then [] else [inst]))
    (hstraight : Straight [inst])
    (hinst : ∀ v m s', Agrees p m s' → s'.regs o.reg = v →
      ∃ s'', execInst oracle inst s' = some s'' ∧ Agrees p (f v m) s'') :
    Follows oracle code p (fun _ => withValue e fun v m => some (.next (f v m))) pc
      (pc + (o.code ++ if o.reg = 0 then [] else [inst]).length) s := by
  refine Follows.consume hsound hcomp hstands fun v m s' hagrees hv hlast => ?_
  obtain ⟨s'', hexec, hagrees'⟩ := hinst v m s' hagrees hv
  have hlead := leads_execAll oracle hlast hstraight ((execAll_one oracle).trans hexec)
  exact .behind hlead (.next hagrees')

theorem Agrees.setSlot {m : Store} {s : RunState} (h : Agrees p m s) (type : DataType) (i : Nat)
    (v : Word) : Agrees p (m.setSlot type i v)
      (s.setSlot i (storeSlot (typeSize type) (s.slots i) v)) where
  params := h.params
  slots := by
    show Function.update s.slots i _ = Function.update m.slots i _
    rw [h.slots]
  args := h.args
  calls := h.calls

theorem Agrees.setParam {m : Store} {s : RunState} (h : Agrees p m s) (i : Nat) (v : Word) :
    Agrees p { m with params := Function.update m.params i v } (s.setReg i v) where
  params := fun j h1 hp => by
    show Function.update s.regs i v j = Function.update m.params i v j
    by_cases hj : j = i
    · rw [hj, Function.update_self, Function.update_self]
    · rw [Function.update_of_ne hj, Function.update_of_ne hj]
      exact h.params j h1 hp
  slots := h.slots
  args := h.args
  calls := h.calls

/-- The code of the initial value of a variable computes it. -/
theorem lowerInit_runs (oracle : Oracle) {env : Env} {stack n : Nat} {s : RunState} {m : Store}
    (henv : EnvFits p stack env) (varType : DataType) (initializer : ASTNode) (hn : p < n)
    (hok : ¬ OutOfVregs (lowerInit env varType initializer n).history) (h : Agrees p m s) :
    Computes oracle p n (lowerInit env varType initializer n).code
      (fun s' => HoldsValue s' (lowerInit env varType initializer n).reg)
      (evalInit oracle env initializer m) s := by
  unfold lowerInit evalInit at *
  split
  · rename_i hnull
    rw [if_pos hnull] at hok
    rw [finish_eq hok]
    exact computes_inst (r := some 0) h hn rfl
  · rename_i hnull
    rw [if_neg hnull] at hok
    exact lowerExpr_runs oracle henv initializer n s m hn hok h

theorem stmtRuns_varDecl (info : NodeInfo) (varName : StringView) (varType : DataType)
    (initializer : ASTNode) :
    StmtRuns oracle code p (.varDecl info varName varType initializer) := by
  intro env c pc s m hp henv hok hstands h
  simp only [lowerStmt, evalStmt] at hok hstands ⊢
  have henv' : EnvFits p (c.stack + 1)
      ((varName, ⟨.var info.addr, varType, ⟨c.stack, true⟩⟩) :: env) :=
    (henv.mono (Nat.le_succ _)).cons (Nat.lt_succ_self _)
  have hok' := fun hm => hok (List.mem_cons_of_mem _ hm)
  have hsound := lowerInit_sound henv' hok'
  have hcomp := lowerInit_runs oracle henv' varType initializer hp hok' h
  refine Follows.consumeStep hsound hcomp hstands ?_ fun v m s' hagrees hv => ?_
  · intro i hi
    cases List.mem_singleton.mp hi
    exact ⟨rfl, nofun⟩
  · subst hv
    exact ⟨_, rfl, hagrees.setSlot varType c.stack _⟩

theorem stmtRuns_assignment (info : NodeInfo) (varName : StringView) (value : ASTNode) :
    StmtRuns oracle code p (.assignment info varName value) := by
  intro env c pc s m hp henv hok hstands h
  simp only [lowerStmt, evalStmt] at hok hstands ⊢
  cases hname : env.lookup varName with
  | none => exact .next h
  | some e =>
    simp only [hname] at hok hstands ⊢
    have hok' : ¬ OutOfVregs (lowerExpr env value c.vreg).history :=
      fun hm => hok (List.mem_cons_of_mem _ hm)
    have hsound := lowerExpr_sound henv value c.vreg hok'
    have hcomp := lowerExpr_runs oracle henv value c.vreg s m hp hok' h
    refine Follows.consumeStep hsound hcomp hstands ?_ fun v m s' hagrees hv => ?_
    · intro i hi
      cases List.mem_singleton.mp hi
      cases e.binding.isStack
      · exact ⟨rfl, show IROpcode.mov ≠ .ret by decide⟩
      · exact ⟨rfl, show IROpcode.store ≠ .ret by decide⟩
    · subst hv
      unfold Store.write
      cases e.binding.isStack with
      | true => exact ⟨_, rfl, hagrees.setSlot info.valueType e.binding.index _⟩
      | false => exact ⟨_, rfl, hagrees.setParam e.binding.index _⟩

theorem stmtRuns_return (info : NodeInfo) (expression : ASTNode) :
    StmtRuns oracle code p (.returnStmt info expression) := by
  intro env c pc s m hp henv hok hstands h
  simp only [lowerStmt, lowerReturned, evalStmt] at hok hstands ⊢
  by_cases hnull : expression.isNull = true
  · simp only [hnull, if_true]
    exact .next h
  · simp only [hnull, Bool.false_eq_true, if_false] at hok hstands ⊢
    have hsound := lowerExpr_sound henv expression c.vreg hok
    have hruns := lowerExpr_runs oracle henv expression c.vreg s m hp hok h
    refine Follows.consume hsound hruns hstands ?_
    intro v m' s' hagrees hv hret
    rw [← hv]
    exact .returned hagrees (results_ret oracle hret rfl)

/-! ## Branches and loops -/

/-- A condition that is given up. -/
theorem Follows.givenUp {n stack pc : Nat} {o : ExprOut} {s : RunState} {e : Evaluation Word}
    {f : Nat → Word → Store → Option Outcome} (hsound : ExprSound p stack n o)
    (hcomp : Computes oracle p n o.code (fun s' => HoldsValue s' o.reg) e s)
    (hstands : StandsAt code pc o.code) (hreg : o.reg = 0) :
    Follows oracle code p (fun fuel => withValue e (f fuel)) pc (pc + o.code.length) s :=
  .value hstands hsound.facts.isStraight hcomp (fun _ => rfl)
    fun _ _ _ _ hne => absurd hreg hne

/-- A condition with a value, and what is done where it holds and where it does not. -/
theorem Follows.cond {n stack pc pc' target l : Nat} {o : ExprOut} {s : RunState}
    {e : Evaluation Word} {condition : ASTNode} {seg : List IRInstruction}
    {f g : Nat → Store → Option Outcome} (hnodup : (labelsOf code).Nodup)
    (hsound : ExprSound p stack n o)
    (hcomp : Computes oracle p n o.code (fun s' => HoldsValue s' o.reg) e s) (hreg : o.reg ≠ 0)
    (hstands : StandsAt code pc (o.code ++ [jzInst condition o.reg l]))
    (htarget : StandsAt code target (labelInst .label l :: seg))
    (hthen : ∀ m s', Agrees p m s' →
      Follows oracle code p (fun fuel => f fuel m) (pc + o.code.length + 1) pc' s')
    (helse : ∀ m s', Agrees p m s' →
      Follows oracle code p (fun fuel => g fuel m) (target + 1) pc' s') :
    Follows oracle code p
      (fun fuel => withValue e fun v m => if v ≠ 0 then f fuel m else g fuel m) pc pc' s := by
  refine Follows.value (f := fun fuel v m => if v ≠ 0 then f fuel m else g fuel m) hstands.left
    hsound.facts.isStraight hcomp (fun hzero => absurd hzero hreg) fun v m s' hagrees _ hv => ?_
  by_cases hzero : v = 0
  · simp only [hzero, ne_eq, not_true, if_false]
    have hjump := leads_jz_taken oracle hnodup hstands.right rfl (hv.trans hzero)
      htarget rfl
    exact .behind (hjump.trans (leads_label oracle htarget rfl)) (helse m s' hagrees)
  · simp only [ne_eq, hzero, not_false_eq_true, if_true]
    have hnext := leads_jz_not_taken oracle hstands.right rfl
      fun h => hzero (hv.symm.trans h)
    exact .behind hnext (hthen m s' hagrees)

theorem follows_if (hnodup : (labelsOf code).Nodup) {n stack pc l : Nat} {o : ExprOut}
    {s : RunState} {e : Evaluation Word} {condition : ASTNode} {then_ : List IRInstruction}
    {f : Nat → Store → Option Outcome} (hsound : ExprSound p stack n o)
    (hcomp : Computes oracle p n o.code (fun s' => HoldsValue s' o.reg) e s) (hreg : o.reg ≠ 0)
    (hstands : StandsAt code pc
      (o.code ++ [jzInst condition o.reg l] ++ then_ ++ [labelInst .label l]))
    (hthen : ∀ pc m s', StandsAt code pc then_ → Agrees p m s' →
      Follows oracle code p (fun fuel => f fuel m) pc (pc + then_.length) s') :
    Follows oracle code p
      (fun fuel => withValue e fun v m => if v ≠ 0 then f fuel m else some (.next m)) pc
      (pc + (o.code ++ [jzInst condition o.reg l] ++ then_ ++ [labelInst .label l]).length) s := by
  have hbody := hstands.left.right
  have hend := hstands.right
  simp only [List.length_append, List.length_singleton, ← Nat.add_assoc] at hbody hend ⊢
  refine .cond (g := fun _ m => some (.next m)) hnodup hsound hcomp hreg hstands.left.left hend
    ?_ ?_
  · intro m s' hagrees
    exact (hthen _ m s' hbody hagrees).before fun _ => leads_label oracle hend rfl
  · exact fun m s' hagrees => .next hagrees

theorem follows_ifElse (hnodup : (labelsOf code).Nodup) {n stack pc l l' : Nat} {o : ExprOut}
    {s : RunState} {e : Evaluation Word} {condition : ASTNode}
    {then_ else_ : List IRInstruction} {f g : Nat → Store → Option Outcome}
    (hsound : ExprSound p stack n o)
    (hcomp : Computes oracle p n o.code (fun s' => HoldsValue s' o.reg) e s) (hreg : o.reg ≠ 0)
    (hstands : StandsAt code pc
      (o.code ++ [jzInst condition o.reg l] ++ then_ ++
        [labelInst .jmp l', labelInst .label l] ++ else_ ++ [labelInst .label l']))
    (hthen : ∀ pc m s', StandsAt code pc then_ → Agrees p m s' →
      Follows oracle code p (fun fuel => f fuel m) pc (pc + then_.length) s')
    (helse : ∀ pc m s', StandsAt code pc else_ → Agrees p m s' →
      Follows oracle code p (fun fuel => g fuel m) pc (pc + else_.length) s') :
    Follows oracle code p
      (fun fuel => withValue e fun v m => if v ≠ 0 then f fuel m else g fuel m) pc
      (pc + (o.code ++ [jzInst condition o.reg l] ++ then_ ++
        [labelInst .jmp l', labelInst .label l] ++ else_ ++ [labelInst .label l']).length) s := by
  have hbody := hstands.left.left.left.right
  have hjmp := hstands.left.left.right
  have hrest := hstands.left.right
  have hend := hstands.right
  simp only [List.length_append, List.length_cons, List.length_nil, Nat.zero_add,
    ← Nat.add_assoc] at hbody hjmp hrest hend ⊢
  refine .cond hnodup hsound hcomp hreg hstands.left.left.left.left hjmp.tail ?_ ?_
  · intro m s' hagrees
    exact (hthen _ m s' hbody hagrees).before fun _ =>
      (leads_jmp oracle hnodup hjmp rfl hend rfl).trans (leads_label oracle hend rfl)
  · intro m s' hagrees
    exact (helse _ m s' hrest hagrees).before fun _ => leads_label oracle hend rfl

theorem lowerStmt_if_givenUp {env : Env} {info : NodeInfo}
    {condition thenBranch elseBranch : ASTNode} {c : Counters}
    (hreg : (lowerExpr env condition c.vreg).reg = 0) :
    (lowerStmt env (.ifStmt info condition thenBranch elseBranch) c).code =
      (lowerExpr env condition c.vreg).code := by
  simp only [lowerStmt, hreg, if_true]
  split <;> rfl

theorem stmtRuns_if (hnodup : (labelsOf code).Nodup) {info : NodeInfo}
    {condition thenBranch elseBranch : ASTNode} (iht : StmtRuns oracle code p thenBranch)
    (ihe : StmtRuns oracle code p elseBranch) :
    StmtRuns oracle code p (.ifStmt info condition thenBranch elseBranch) := by
  intro env c pc s m hp henv hok hstands h
  have hcond : ¬ OutOfVregs (lowerExpr env condition c.vreg).history := by
    intro hout
    apply hok
    simp only [lowerStmt]
    split <;> split <;> simp_all [OutOfVregs]
  have hsound := lowerExpr_sound henv condition c.vreg hcond
  have hcomp := lowerExpr_runs oracle henv condition c.vreg s m hp hcond h
  by_cases hreg : (lowerExpr env condition c.vreg).reg = 0
  · rw [lowerStmt_if_givenUp hreg] at hstands ⊢
    exact .givenUp hsound hcomp hstands hreg
  simp only [lowerStmt, evalStmt, hreg, if_false] at hok hstands ⊢
  set o := lowerExpr env condition c.vreg
  have hp' : p < o.next := Nat.lt_of_lt_of_le hp hsound.facts.le
  cases hnull : elseBranch.isNull with
  | true =>
    simp only [hnull, if_true] at hok hstands ⊢
    refine follows_if hnodup hsound hcomp hreg hstands fun pc m s' ht hagrees => ?_
    exact iht env ⟨o.next, c.stack, c.label + 1⟩ pc s' m hp' henv (not_outOfVregs_right hok) ht
      hagrees
  | false =>
    simp only [hnull, Bool.false_eq_true, if_false] at hok hstands ⊢
    have hok₁ := not_outOfVregs_right (not_outOfVregs_left hok)
    have ht := lowerStmt_sound thenBranch env ⟨o.next, c.stack, c.label + 2⟩ hp' henv hok₁
    obtain ⟨henv', hstack'⟩ :=
      lowerStmt_scopes thenBranch env ⟨o.next, c.stack, c.label + 2⟩ hp' henv hok₁
    refine follows_ifElse hnodup hsound hcomp hreg hstands (fun pc m s' ht hagrees => ?_)
      fun pc m s' he hagrees => ?_
    · exact iht env ⟨o.next, c.stack, c.label + 2⟩ pc s' m hp' henv hok₁ ht hagrees
    · rw [← henv', ← hstack']
      exact ihe _ _ pc s' m (Nat.lt_of_lt_of_le hp' ht.piece.le) ht.env (not_outOfVregs_right hok)
        he hagrees

/-- A run that stands where the store says. -/
def Store.state (m : Store) : RunState := ⟨m.params, m.slots, [], m.calls⟩

theorem agrees_state (p : Nat) (m : Store) : Agrees p m m.state :=
  ⟨fun _ _ _ => rfl, rfl, rfl, rfl⟩

/-- A condition, a branch over the body, and the jump back make a loop. -/
theorem loopFollows {n stack pc pc' l : Nat} {o : ExprOut} {cond : Store → Evaluation Word}
    (body : Nat → Store → Option Outcome) (pcBody pcJmp : Nat)
    (hlabel : StandsAt code pc (labelInst .label l :: o.code)) (hsound : ExprSound p stack n o)
    (hcond : ∀ m s, Agrees p m s →
      Computes oracle p n o.code (fun s' => HoldsValue s' o.reg) (cond m) s)
    (hgiven : o.reg = 0 → pc' = pc + 1 + o.code.length)
    (hzero : ∀ s, o.reg ≠ 0 → s.regs o.reg = 0 →
      Leads (runStep oracle code) (pc + 1 + o.code.length, s) (pc', s))
    (hturn : ∀ s, o.reg ≠ 0 → s.regs o.reg ≠ 0 →
      Leads (runStep oracle code) (pc + 1 + o.code.length, s) (pcBody, s))
    (hbody : ∀ m s, o.reg ≠ 0 → Agrees p m s →
      Follows oracle code p (fun fuel => body fuel m) pcBody pcJmp s)
    (hjmp : ∀ s, o.reg ≠ 0 → Leads (runStep oracle code) (pcJmp, s) (pc, s)) :
    LoopFollows oracle code p (fun fuel m => loopTurn (cond m) (body fuel)) pc pc' where
  forward := by
    intro fuel m s r h hr
    have hstart := leads_label oracle (s := s) hlabel rfl
    have hvalue := hcond m s h
    unfold loopTurn at hr
    generalize cond m = e at hvalue hr
    match e, hvalue with
    | some (none, m₁), hvalue =>
      obtain ⟨s₁, hexec, hagrees, -, hreg⟩ := hvalue
      cases hr
      have hlead := leads_execAll oracle hlabel.tail hsound.facts.isStraight hexec
      exact ⟨s₁, hagrees, hgiven hreg ▸ hstart.trans hlead⟩
    | some (some v, m₁), hvalue =>
      obtain ⟨s₁, hexec, hagrees, -, hreg, hv⟩ := hvalue
      have hlead := hstart.trans
        (leads_execAll oracle hlabel.tail hsound.facts.isStraight hexec)
      by_cases hv0 : v = 0
      · simp only [Option.bind_some, hv0, if_true] at hr
        cases hr
        exact ⟨s₁, hagrees, hlead.trans (hzero s₁ hreg (hv.trans hv0))⟩
      · simp only [Option.bind_some, hv0, if_false] at hr
        have hin := hlead.trans (hturn s₁ hreg fun h0 => hv0 (hv.symm.trans h0))
        obtain ⟨out, hout, rfl⟩ := Option.map_eq_some_iff.mp hr
        have hreach := ((hbody m₁ s₁ hreg hagrees).forward fuel out hout).behind hin
        cases out with
        | next m' =>
          obtain ⟨s', hagrees', hback⟩ := hreach
          exact ⟨s', hagrees', hback.trans (hjmp s' hreg)⟩
        | returned v m' => exact hreach
  backward := by
    intro n w m s h hn
    -- the label is one step, so fewer are left behind a turn
    obtain ⟨n, rfl, hleave | ⟨c, hagain, hn⟩⟩ := iterate_cases hn
    · rw [runStep_label oracle hlabel rfl] at hleave
      cases hleave
    rw [runStep_label oracle hlabel rfl] at hagain
    cases hagain
    have hvalue := hcond m s h
    unfold loopTurn
    generalize cond m = e at hvalue
    match e, hvalue with
    | none, hvalue =>
      have hstuck := stuck_execAll oracle hlabel.tail hsound.facts.isStraight hvalue w
      exact absurd ⟨n, hn⟩ hstuck
    | some (none, m₁), hvalue => exact ⟨0, _, rfl, nofun⟩
    | some (some v, m₁), hvalue =>
      obtain ⟨s₁, hexec, hagrees, -, hreg, hv⟩ := hvalue
      have hlead := leads_execAll oracle hlabel.tail hsound.facts.isStraight hexec
      by_cases hv0 : v = 0
      · simp only [Option.bind_some, hv0, if_true]
        exact ⟨0, _, rfl, nofun⟩
      · simp only [Option.bind_some, hv0, if_false]
        have hin := hlead.trans (hturn s₁ hreg fun h0 => hv0 (hv.symm.trans h0))
        obtain ⟨k, hk, hrest⟩ := hin.iterate hn
        have hfollows := hbody m₁ s₁ hreg hagrees
        obtain ⟨fuel, out, hout⟩ := hfollows.backward k w hrest
        refine ⟨fuel, _, Option.map_eq_some_iff.mpr ⟨out, hout, rfl⟩, ?_⟩
        intro m' hm'
        cases out with
        | next m₂ =>
          cases hm'
          obtain ⟨s', hagrees', hback⟩ := hfollows.forward fuel _ hout
          obtain ⟨k', hk', hrest'⟩ := (hback.trans (hjmp s' hreg)).iterate hrest
          exact ⟨s', k', hagrees', by omega, hrest'⟩
        | returned v m₂ => cases hm'
  mono := by
    intro fuel fuel' m r hle hr
    have hvalue := hcond m m.state (agrees_state p m)
    unfold loopTurn at hr ⊢
    generalize cond m = e at hvalue hr
    match e, hvalue with
    | some (none, m₁), hvalue => exact hr
    | some (some v, m₁), hvalue =>
      obtain ⟨s₁, -, hagrees, -, hreg, -⟩ := hvalue
      by_cases hv0 : v = 0
      · simp only [Option.bind_some, hv0, if_true] at hr ⊢
        exact hr
      · simp only [Option.bind_some, hv0, if_false] at hr ⊢
        obtain ⟨out, hout, rfl⟩ := Option.map_eq_some_iff.mp hr
        exact Option.map_eq_some_iff.mpr
          ⟨out, (hbody m₁ s₁ hreg hagrees).mono fuel fuel' out hle hout, rfl⟩

theorem stmtRuns_while (hnodup : (labelsOf code).Nodup) {info : NodeInfo}
    {condition body : ASTNode} (ih : StmtRuns oracle code p body) :
    StmtRuns oracle code p (.whileStmt info condition body) := by
  intro env c pc s m hp henv hok hstands h
  simp only [lowerStmt, evalStmt] at hok hstands ⊢
  have hcond : ¬ OutOfVregs (lowerExpr env condition c.vreg).history := by
    intro hout
    apply hok
    split <;> simp_all [OutOfVregs]
  have hsound := lowerExpr_sound henv condition c.vreg hcond
  have hruns := fun m s => lowerExpr_runs oracle henv condition c.vreg s m hp hcond
  set o := lowerExpr env condition c.vreg
  by_cases hreg : o.reg = 0
  · simp only [hreg, if_true] at hstands ⊢
    have hend : pc + (labelInst .label c.label :: o.code).length = pc + 1 + o.code.length := by
      rw [List.length_cons, Nat.add_comm o.code.length, Nat.add_assoc]
    have hloop := loopFollows (fun fuel m => evalStmt oracle fuel env body c.stack m) pc pc
      hstands hsound hruns (fun _ => hend) (fun _ hne => absurd hreg hne)
      (fun _ hne => absurd hreg hne) (fun _ _ hne => absurd hreg hne)
      (fun _ hne => absurd hreg hne)
    exact hloop.follows h
  simp only [hreg, if_false] at hok hstands ⊢
  have hfirst := hstands.left.left.left
  have hjz := hstands.left.left.right
  have hbody := hstands.left.right
  have hjmp := hstands.right
  simp only [List.length_append, List.length_cons, List.length_nil, Nat.zero_add,
    ← Nat.add_assoc] at hjz hbody hjmp ⊢
  have hp' : p < o.next := Nat.lt_of_lt_of_le hp hsound.facts.le
  refine (loopFollows _ _ _ hfirst hsound hruns (fun h => absurd h hreg) (fun s _ hzero => ?_)
    (fun s _ hne => leads_jz_not_taken oracle hjz rfl hne) (fun m s _ hagrees => ?_)
    fun s _ => leads_jmp oracle hnodup hjmp rfl hfirst rfl).follows h
  · exact (leads_jz_taken oracle hnodup hjz rfl hzero hjmp.tail rfl).trans
      (leads_label oracle hjmp.tail rfl)
  · exact ih env ⟨o.next, c.stack, c.label + 2⟩ _ s m hp' henv (not_outOfVregs_right hok) hbody
      hagrees

mutual

/-- The code of every statement does what the statement does. -/
theorem lowerStmt_runs (hnodup : (labelsOf code).Nodup) :
    ∀ node : ASTNode, StmtRuns oracle code p node
  | .null => fun _ _ _ _ _ _ _ _ _ h => .next h
  | .varDecl info varName varType initializer => stmtRuns_varDecl info varName varType initializer
  | .assignment info varName value => stmtRuns_assignment info varName value
  | .returnStmt info expression => stmtRuns_return info expression
  | .block _ statements => lowerStmts_run hnodup statements
  | .ifStmt _ _ thenBranch elseBranch =>
      stmtRuns_if hnodup (lowerStmt_runs hnodup thenBranch) (lowerStmt_runs hnodup elseBranch)
  | .whileStmt _ _ body => stmtRuns_while hnodup (lowerStmt_runs hnodup body)
  | .number _ _ => stmtRuns_expr (fun _ _ => rfl) fun _ _ _ _ => rfl
  | .identifier _ _ => stmtRuns_expr (fun _ _ => rfl) fun _ _ _ _ => rfl
  | .binary _ _ _ _ => stmtRuns_expr (fun _ _ => rfl) fun _ _ _ _ => rfl
  | .unary _ _ _ => stmtRuns_expr (fun _ _ => rfl) fun _ _ _ _ => rfl
  | .call _ _ _ => stmtRuns_expr (fun _ _ => rfl) fun _ _ _ _ => rfl
  | .function _ _ _ _ _ _ => stmtRuns_expr (fun _ _ => rfl) fun _ _ _ _ => rfl
  | .translationUnit _ _ => stmtRuns_expr (fun _ _ => rfl) fun _ _ _ _ => rfl

/-- The code of the statements of a block does what they do. -/
theorem lowerStmts_run (hnodup : (labelsOf code).Nodup) :
    ∀ nodes : List ASTNode, StmtsRun oracle code p nodes
  | [] => fun _ _ _ _ _ _ _ _ _ h => .next h
  | stmt :: rest => by
      intro env c pc s m hp henv hok hstands h
      simp only [lowerStmts, evalStmts] at hok hstands ⊢
      have hok₁ := not_outOfVregs_left hok
      have hsound := lowerStmt_sound (p := p) stmt env c hp henv hok₁
      obtain ⟨henv', hstack'⟩ := lowerStmt_scopes stmt env c hp henv hok₁
      have hp' := Nat.lt_of_lt_of_le hp hsound.piece.le
      have hfirst := lowerStmt_runs hnodup stmt env c pc s m hp henv hok₁ hstands.left h
      refine hfirst.seq fun m' s' hagrees => ?_
      rw [← henv', ← hstack', List.length_append, ← Nat.add_assoc]
      exact lowerStmts_run hnodup rest _ _ _ s' m' hp' hsound.env (not_outOfVregs_right hok)
        hstands.right hagrees

end

/-! ## Functions -/

/-- Behind the last instruction nothing happens. -/
theorem stuck_end (oracle : Oracle) (s : RunState) (w : Word × RunState) :
    ¬ Results (runStep oracle code) (code.length, s) w := by
  have hstep : runStep oracle code (code.length, s) = none := by
    unfold runStep
    rw [List.getElem?_eq_none (Nat.le_refl _)]
    rfl
  rintro ⟨n, hn⟩
  obtain ⟨m, -, hleave | ⟨c, hagain, -⟩⟩ := iterate_cases hn
  · rw [hstep] at hleave
    cases hleave
  · rw [hstep] at hagain
    cases hagain

/-- The run of a whole function returns exactly where its tree returns, with the same value
and the same calls. -/
theorem Follows.returns_iff {x : Nat → Option Outcome} {pc : Nat} {s : RunState} {v : Word}
    {calls : List Call} (h : Follows oracle code p x pc code.length s) :
    (∃ s', Results (runStep oracle code) (pc, s) (v, s') ∧ s'.calls = calls) ↔
      ∃ fuel m, x fuel = some (.returned v m) ∧ m.calls = calls := by
  constructor
  · rintro ⟨s', hrun, hcalls⟩
    obtain ⟨n, hn⟩ := hrun
    obtain ⟨fuel, o, ho⟩ := h.backward n _ hn
    have hreach := h.forward fuel o ho
    cases o with
    | next m =>
      -- the run would go on behind the last instruction
      obtain ⟨s'', -, hlead⟩ := hreach
      obtain ⟨k, -, hk⟩ := hlead.iterate hn
      exact absurd ⟨k, hk⟩ (stuck_end oracle s'' (v, s'))
    | returned v' m =>
      obtain ⟨s'', hagrees, hrun'⟩ := hreach
      cases hrun'.unique ⟨n, hn⟩
      exact ⟨fuel, m, ho, hagrees.calls.symm.trans hcalls⟩
  · rintro ⟨fuel, m, ho, hcalls⟩
    obtain ⟨s', hagrees, hrun⟩ := h.forward fuel _ ho
    exact ⟨s', hrun, hagrees.calls.trans hcalls⟩

/-- The store in which a run starts. -/
def RunState.store (s : RunState) : Store := ⟨s.regs, s.slots, s.calls⟩

theorem agrees_store (p : Nat) {s : RunState} (h : s.args = []) : Agrees p s.store s :=
  ⟨fun _ _ _ => rfl, rfl, h, rfl⟩

/-- The code of a function does what its body does, whatever stands behind it. -/
theorem function_follows (oracle : Oracle) {stack : Nat} {info bodyInfo : NodeInfo}
    {name : StringView} {returnType : DataType} {params : List Parameter}
    {statements : List ASTNode} {isPrototype : Bool} {s : RunState} {rest : List IRInstruction}
    (hcode : code = (lowerRoot stack (.function info name returnType params
      (.block bodyInfo statements) isPrototype)).code)
    (hok : ¬ OutOfVregs (lowerRoot stack (.function info name returnType params
      (.block bodyInfo statements) isPrototype)).history) (hs : s.args = [])
    (hrest : labelsOf rest = []) :
    Follows oracle (code ++ rest) params.length
      (fun fuel => evalStmts oracle fuel (paramEnv [] params 0) statements stack s.store) 0
      code.length s := by
  subst hcode
  have hlabels := lowerRoot_labels stack (.function info name returnType params
    (.block bodyInfo statements) isPrototype)
  simp only [lowerRoot] at hok hlabels ⊢
  have henv : EnvFits params.length stack (paramEnv [] params 0) :=
    envFits_params params 0 (fun _ _ h => nomatch h) (by omega)
  have hstands : ∀ code : List IRInstruction, StandsAt (code ++ rest) 0 code :=
    fun code => ⟨[], rest, by simp, rfl⟩
  have hnodup : ∀ code : List IRInstruction, (labelsOf code).Nodup →
      (labelsOf (code ++ rest)).Nodup := by
    intro code h
    rwa [labelsOf_append, hrest, List.append_nil]
  have hfollows := @lowerStmts_run oracle _ _ (hnodup _ hlabels.nodup) statements
    (paramEnv [] params 0) ⟨1 + params.length, stack, 0⟩ 0 s s.store (by simp only []; omega)
    henv hok (hstands _) (agrees_store params.length hs)
  rwa [Nat.zero_add] at hfollows

/-- The code of a function returns what its body returns. -/
theorem function_returns_iff (oracle : Oracle) {stack : Nat} {info bodyInfo : NodeInfo}
    {name : StringView} {returnType : DataType} {params : List Parameter}
    {statements : List ASTNode} {isPrototype : Bool} {s : RunState} {v : Word} {calls : List Call}
    (hcode : code = (lowerRoot stack (.function info name returnType params
      (.block bodyInfo statements) isPrototype)).code)
    (hok : ¬ OutOfVregs (lowerRoot stack (.function info name returnType params
      (.block bodyInfo statements) isPrototype)).history) (hs : s.args = []) :
    (∃ s', Results (runStep oracle code) (0, s) (v, s') ∧ s'.calls = calls) ↔
      ∃ fuel m, evalStmts oracle fuel (paramEnv [] params 0) statements stack s.store =
        some (.returned v m) ∧ m.calls = calls := by
  have hfollows := @function_follows code oracle _ _ _ _ _ _ _ _ s [] hcode hok hs rfl
  rw [List.append_nil] at hfollows
  exact hfollows.returns_iff

end

end TinyCompile.Ir
