import TinyCompile.Ir.GenLower

set_option autoImplicit false

/-!
# Ir: facts about the generated code

What later passes rely on: which virtual registers an instruction reads, that the
last register of a function is read only right after it is written, that labels
are distinct and jumps have a target, and that arguments stand in a row before
their call.
-/

namespace TinyCompile.Ir

open TinyCompile.Source

/-! ## What an instruction reads and writes -/

/-- The virtual registers an instruction reads. -/
def IRInstruction.uses (inst : IRInstruction) : List Nat :=
  match inst.opcode with
  | .label | .jmp | .const | .load | .call => []
  | .neg | .bnot | .not | .mov | .store | .arg | .jz | .jnz | .ret => [inst.src1]
  | _ => [inst.src1, inst.src2]

/-- The virtual register an instruction writes. -/
def IRInstruction.defines (inst : IRInstruction) : Option Nat :=
  match inst.opcode with
  | .store | .arg | .label | .jmp | .jz | .jnz | .ret => none
  | _ => some inst.dest

/-- The local an instruction accesses. -/
def IRInstruction.slot (inst : IRInstruction) : Option Nat :=
  match inst.opcode with
  | .store => some inst.dest
  | .load => some inst.src1
  | _ => none

/-- The label an instruction jumps to. -/
def IRInstruction.target (inst : IRInstruction) : Option Nat :=
  match inst.opcode with
  | .jmp | .jz | .jnz => some inst.labelId
  | _ => none

/-- The label an instruction is. -/
def IRInstruction.labelDef (inst : IRInstruction) : Option Nat :=
  match inst.opcode with
  | .label => some inst.labelId
  | _ => none

/-- The labels of a piece of code, in order. -/
def labelsOf (code : List IRInstruction) : List Nat := code.filterMap IRInstruction.labelDef

@[simp] theorem labelsOf_nil : labelsOf [] = [] := rfl

@[simp] theorem labelsOf_append (code code' : List IRInstruction) :
    labelsOf (code ++ code') = labelsOf code ++ labelsOf code' := by
  simp [labelsOf]

/-- The virtual registers a piece of code writes, in order. -/
def writtenBy (code : List IRInstruction) : List Nat := code.filterMap IRInstruction.defines

@[simp] theorem writtenBy_nil : writtenBy [] = [] := rfl

@[simp] theorem writtenBy_append (code code' : List IRInstruction) :
    writtenBy (code ++ code') = writtenBy code ++ writtenBy code' := by
  simp [writtenBy]

theorem mem_writtenBy {code : List IRInstruction} {v : Nat} :
    v ∈ writtenBy code ↔ ∃ inst ∈ code, inst.defines = some v := List.mem_filterMap

/-! ## Arguments -/

/-- Scan code that starts behind `k` arguments: arguments are numbered in order, and
nothing but a call follows them.  The result is the number of arguments at the end. -/
def argScan : Nat → List IRInstruction → Option Nat
  | k, [] => some k
  | k, inst :: rest =>
      match inst.opcode with
      | .arg => if inst.imm = BitVec.ofNat 64 k then argScan (k + 1) rest else none
      | .call => argScan 0 rest
      | _ => if k = 0 then argScan 0 rest else none

theorem argScan_append (k : Nat) (code code' : List IRInstruction) :
    argScan k (code ++ code') = (argScan k code).bind fun k' => argScan k' code' := by
  induction code generalizing k with
  | nil => rfl
  | cons inst code ih =>
    simp only [List.cons_append, argScan]
    split
    · split
      · exact ih _
      · rfl
    · exact ih _
    · split
      · exact ih _
      · rfl

/-- Code without arguments and calls. -/
theorem argScan_plain {code : List IRInstruction}
    (h : ∀ inst ∈ code, inst.opcode ≠ .arg) : argScan 0 code = some 0 := by
  induction code with
  | nil => rfl
  | cons inst code ih =>
    have hrest := ih fun i hi => h i (by simp [hi])
    have hinst := h inst (by simp)
    simp only [argScan]
    split
    · rename_i hop
      exact absurd hop hinst
    · exact hrest
    · simpa using hrest

theorem argScan_argInsts (pairs : List (ASTNode × Nat)) (i : Nat) :
    argScan i (argInsts pairs i) = some (i + pairs.length) := by
  induction pairs generalizing i with
  | nil => rfl
  | cons p pairs ih =>
    simp only [argInsts, argScan, if_true, ih, List.length_cons]
    congr 1
    omega

/-! ## Names in scope -/

/-- Every name in scope stands for one of `p` parameters or for a local with a slot
below `stack`. -/
def EnvFits (p stack : Nat) (env : Env) : Prop :=
  ∀ name e, env.lookup name = some e →
    if e.binding.isStack then e.binding.index < stack
    else 1 ≤ e.binding.index ∧ e.binding.index ≤ p

theorem EnvFits.mono {p stack stack' : Nat} {env : Env} (h : EnvFits p stack env)
    (hle : stack ≤ stack') : EnvFits p stack' env := by
  intro name e he
  have := h name e he
  split
  · rename_i hstack
    rw [if_pos hstack] at this
    omega
  · rename_i hstack
    rwa [if_neg hstack] at this

theorem EnvFits.cons {p stack : Nat} {env : Env} {name : StringView} {e : Entry}
    (h : EnvFits p stack env)
    (he : if e.binding.isStack then e.binding.index < stack
      else 1 ≤ e.binding.index ∧ e.binding.index ≤ p) :
    EnvFits p stack ((name, e) :: env) := by
  intro name' e' he'
  rw [List.lookup_cons] at he'
  split at he'
  · obtain rfl : e = e' := by simpa using he'
    exact he
  · exact h name' e' he'

/-- The generator ran out of virtual registers. -/
abbrev OutOfVregs (history : List Event) : Prop := Event.drop .vregLimit ∈ history

/-! ## Expressions -/

/-- The value of an expression: it was given up, it is a parameter, or the last
instruction of its code writes it into the last register allocated. -/
inductive ValueIn (p n : Nat) (code : List IRInstruction) (next : Nat) : Nat → Prop
  | dropped : ValueIn p n code next 0
  | param {reg : Nat} (hcode : code = []) (hnext : next = n) (h1 : 1 ≤ reg) (hp : reg ≤ p) :
      ValueIn p n code next reg
  | fresh {reg : Nat} (init : List IRInstruction) (inst : IRInstruction)
      (hcode : code = init ++ [inst]) (hdef : inst.defines = some reg) (hn : n ≤ reg)
      (hnext : reg + 1 = next) : ValueIn p n code next reg

/-- Facts about the code of an expression that starts with register `n`. -/
structure ExprFacts (p stack n : Nat) (code : List IRInstruction) (next : Nat) : Prop where
  le : n ≤ next
  limit : next ≤ max n maxVregsPerFunction
  defines : ∀ inst ∈ code, ∀ v, inst.defines = some v → n ≤ v ∧ v < next
  uses : ∀ inst ∈ code, ∀ v ∈ inst.uses, (1 ≤ v ∧ v ≤ p) ∨ (n ≤ v ∧ v + 1 < next)
  slots : ∀ inst ∈ code, ∀ i, inst.slot = some i → i < stack
  straight : ∀ inst ∈ code, inst.labelDef = none ∧ inst.target = none ∧ inst.opcode ≠ .ret
  args : argScan 0 code = some 0
  once : writtenBy code = List.range' n (next - n)
  before : ∀ pre inst post, code = pre ++ inst :: post → ∀ v ∈ inst.uses, p < v →
    v ∈ writtenBy pre

theorem ExprFacts.nil {p stack n : Nat} : ExprFacts p stack n [] n where
  le := Nat.le_refl _
  limit := by omega
  defines := by simp
  uses := by simp
  slots := by simp
  straight := by simp
  args := rfl
  once := by simp
  before := by simp

theorem mem_range'_sub {n next v : Nat} (hn : n ≤ v) (hv : v < next) :
    v ∈ List.range' n (next - n) :=
  List.mem_range'_1.mpr ⟨hn, by omega⟩

theorem range'_sub_append {n n' n'' : Nat} (h : n ≤ n') (h' : n' ≤ n'') :
    List.range' n (n' - n) ++ List.range' n' (n'' - n') = List.range' n (n'' - n) := by
  have hn' : n' = n + 1 * (n' - n) := by omega
  have hsum : n'' - n = (n' - n) + (n'' - n') := by omega
  rw [hsum, ← List.range'_append, ← hn']

/-- An instruction of two pieces of code is in the first or in the second. -/
theorem split_append {α : Type} {xs ys pre post : List α} {x : α}
    (h : xs ++ ys = pre ++ x :: post) :
    (∃ mid, xs = pre ++ x :: mid) ∨ ∃ mid, pre = xs ++ mid ∧ ys = mid ++ x :: post := by
  rcases List.append_eq_append_iff.mp h with ⟨mid, hpre, hys⟩ | ⟨mid, hxs, hpost⟩
  · exact .inr ⟨mid, hpre, hys⟩
  · cases mid with
    | nil => exact .inr ⟨[], by simpa using hxs.symm, by simpa using hpost.symm⟩
    | cons y mid =>
      obtain ⟨rfl, -⟩ : x = y ∧ post = mid ++ ys := by simpa using hpost
      exact .inl ⟨mid, hxs⟩

theorem ExprFacts.append {p stack n n' n'' : Nat} {code code' : List IRInstruction}
    (h : ExprFacts p stack n code n') (h' : ExprFacts p stack n' code' n'') :
    ExprFacts p stack n (code ++ code') n'' where
  le := Nat.le_trans h.le h'.le
  limit := by
    have := h.limit
    have := h'.limit
    omega
  defines := by
    intro inst hi v hv
    rcases List.mem_append.mp hi with hi | hi
    · have := h.defines inst hi v hv
      have := h'.le
      omega
    · have := h'.defines inst hi v hv
      have := h.le
      omega
  uses := by
    intro inst hi v hv
    rcases List.mem_append.mp hi with hi | hi
    · have := h.uses inst hi v hv
      have := h'.le
      omega
    · have := h'.uses inst hi v hv
      have := h.le
      omega
  slots := fun inst hi => (List.mem_append.mp hi).elim (h.slots inst) (h'.slots inst)
  straight := fun inst hi => (List.mem_append.mp hi).elim (h.straight inst) (h'.straight inst)
  args := by rw [argScan_append, h.args, Option.bind_some, h'.args]
  once := by rw [writtenBy_append, h.once, h'.once, range'_sub_append h.le h'.le]
  before := by
    intro pre inst post heq v hv hp
    rcases split_append heq with ⟨mid, hcode⟩ | ⟨mid, rfl, hcode'⟩
    · exact h.before pre inst mid hcode v hv hp
    · rw [writtenBy_append]
      exact List.mem_append_right _ (h'.before mid inst post hcode' v hv hp)

/-- Instructions of which one writes the next register. -/
theorem ExprFacts.block {p stack n m : Nat} {code t : List IRInstruction}
    (h : ExprFacts p stack n code m) (hm : m < maxVregsPerFunction)
    (hdef : writtenBy t = [m])
    (huses : ∀ inst ∈ t, ∀ v ∈ inst.uses, (1 ≤ v ∧ v ≤ p) ∨ (n ≤ v ∧ v < m))
    (hslot : ∀ inst ∈ t, ∀ i, inst.slot = some i → i < stack)
    (hstraight : ∀ inst ∈ t,
      inst.labelDef = none ∧ inst.target = none ∧ inst.opcode ≠ .ret)
    (harg : argScan 0 t = some 0) : ExprFacts p stack n (code ++ t) (m + 1) where
  le := by
    have := h.le
    omega
  limit := by omega
  defines := by
    intro i hi v hv
    have := h.le
    rcases List.mem_append.mp hi with hi | hi
    · have := h.defines i hi v hv
      omega
    · have hv := mem_writtenBy.mpr ⟨i, hi, hv⟩
      rw [hdef, List.mem_singleton] at hv
      omega
  uses := by
    intro i hi v hv
    rcases List.mem_append.mp hi with hi | hi
    · have := h.uses i hi v hv
      omega
    · have := huses i hi v hv
      omega
  slots := fun inst hi => (List.mem_append.mp hi).elim (h.slots inst) (hslot inst)
  straight := fun inst hi => (List.mem_append.mp hi).elim (h.straight inst) (hstraight inst)
  args := by rw [argScan_append, h.args, Option.bind_some, harg]
  once := by
    have hle := h.le
    rw [writtenBy_append, h.once, hdef, ← range'_sub_append hle (Nat.le_succ m)]
    simp
  before := by
    intro pre inst post heq v hv hp
    rcases split_append heq with ⟨mid, hcode⟩ | ⟨mid, rfl, ht⟩
    · exact h.before pre inst mid hcode v hv hp
    · have hinst : inst ∈ t := by
        rw [ht]
        simp
      have hbound := huses inst hinst v hv
      rw [writtenBy_append, h.once]
      exact List.mem_append_left _ (mem_range'_sub (by omega) (by omega))

/-- The register of a value can be read by an instruction that follows. -/
theorem ValueIn.usable {p n next reg : Nat} {code : List IRInstruction}
    (h : ValueIn p n code next reg) (h0 : reg ≠ 0) :
    (1 ≤ reg ∧ reg ≤ p) ∨ (n ≤ reg ∧ reg < next) := by
  cases h with
  | dropped => exact absurd rfl h0
  | param hcode hnext h1 hp => exact .inl ⟨h1, hp⟩
  | fresh init inst hcode hdef hn hnext => exact .inr ⟨hn, by omega⟩

/-- What an instruction that ends an expression may be. -/
structure Ends (p stack n m : Nat) (inst : IRInstruction) : Prop where
  defines : inst.defines = some m
  uses : ∀ v ∈ inst.uses, (1 ≤ v ∧ v ≤ p) ∨ (n ≤ v ∧ v < m)
  slot : ∀ i, inst.slot = some i → i < stack
  straight : inst.labelDef = none ∧ inst.target = none ∧ inst.opcode ≠ .ret
  notArg : inst.opcode ≠ .arg

/-- What is proved of every lowered expression. -/
structure ExprSound (p stack n : Nat) (o : ExprOut) : Prop where
  facts : ExprFacts p stack n o.code o.next
  value : ValueIn p n o.code o.next o.reg

/-- An expression that gives up without code. -/
theorem ExprSound.dropped {p stack n : Nat} {history : List Event} :
    ExprSound p stack n ⟨[], 0, n, history⟩ := ⟨.nil, .dropped⟩

/-- An expression is finished, unless the registers ran out. -/
theorem exprSound_finish {p stack n m : Nat} {code : List IRInstruction}
    {history : List Event} {inst : Nat → IRInstruction} (h : ExprFacts p stack n code m)
    (hok : ¬ OutOfVregs (finish code m history inst).history)
    (hends : Ends p stack n m (inst m)) :
    ExprSound p stack n (finish code m history inst) := by
  unfold finish at hok ⊢
  split
  · rename_i hfull
    rw [if_pos hfull] at hok
    exact absurd (by simp [OutOfVregs]) hok
  · rename_i hroom
    refine ⟨h.block (by omega) ?_ ?_ ?_ ?_ ?_, ?_⟩
    · simp [writtenBy, hends.defines]
    · intro i hi
      rw [List.mem_singleton.mp hi]
      exact hends.uses
    · intro i hi
      rw [List.mem_singleton.mp hi]
      exact hends.slot
    · intro i hi
      rw [List.mem_singleton.mp hi]
      exact hends.straight
    · exact argScan_plain fun i hi => by
        rw [List.mem_singleton.mp hi]
        exact hends.notArg
    · exact .fresh code (inst m) rfl hends.defines h.le rfl

theorem not_outOfVregs_left {h h' : List Event} (hok : ¬ OutOfVregs (h ++ h')) :
    ¬ OutOfVregs h := fun hm => hok (List.mem_append_left _ hm)

theorem not_outOfVregs_right {h h' : List Event} (hok : ¬ OutOfVregs (h ++ h')) :
    ¬ OutOfVregs h' := fun hm => hok (List.mem_append_right _ hm)

theorem not_outOfVregs_finish {code : List IRInstruction} {next : Nat} {history : List Event}
    {inst : Nat → IRInstruction} (hok : ¬ OutOfVregs (finish code next history inst).history) :
    ¬ OutOfVregs history := by
  unfold finish at hok
  split at hok
  · exact not_outOfVregs_left hok
  · exact hok

/-- What is proved of the lowered arguments of a call. -/
structure ArgsSound (p stack n : Nat) (args : List ASTNode) (a : ArgsOut) : Prop where
  facts : ExprFacts p stack n a.code a.next
  regs : ∀ rs, a.regs = some rs → rs.length = args.length ∧
    ∀ r ∈ rs, (1 ≤ r ∧ r ≤ p) ∨ (n ≤ r ∧ r < a.next)

/-- What is known of an argument instruction. -/
theorem mem_argInsts {pairs : List (ASTNode × Nat)} {i : Nat} {inst : IRInstruction}
    (h : inst ∈ argInsts pairs i) : inst.opcode = .arg ∧ ∃ pr ∈ pairs, inst.src1 = pr.2 := by
  induction pairs generalizing i with
  | nil => cases h
  | cons pr pairs ih =>
    rcases List.mem_cons.mp h with rfl | h
    · exact ⟨rfl, pr, by simp, rfl⟩
    · obtain ⟨hop, pr', hpr', hsrc⟩ := ih h
      exact ⟨hop, pr', by simp [hpr'], hsrc⟩

theorem writtenBy_argInsts (pairs : List (ASTNode × Nat)) (i : Nat) :
    writtenBy (argInsts pairs i) = [] := by
  refine List.filterMap_eq_nil_iff.mpr fun inst hi => ?_
  simp [IRInstruction.defines, (mem_argInsts hi).1]

theorem ends_unary {p stack n m reg : Nat} {op : UnaryOp} {type : DataType}
    (hreg : (1 ≤ reg ∧ reg ≤ p) ∨ (n ≤ reg ∧ reg < m)) :
    Ends p stack n m { opcode := unaryOpcode op, type := type, dest := m, src1 := reg } := by
  cases op <;>
    exact ⟨rfl, by simpa [IRInstruction.uses, unaryOpcode] using hreg,
      by simp [IRInstruction.slot, unaryOpcode], ⟨rfl, rfl, by simp [unaryOpcode]⟩,
      by simp [unaryOpcode]⟩

theorem ends_binary {p stack n m l r : Nat} {op : BinaryOp} {type leftType : DataType}
    (hl : (1 ≤ l ∧ l ≤ p) ∨ (n ≤ l ∧ l < m)) (hr : (1 ≤ r ∧ r ≤ p) ∨ (n ≤ r ∧ r < m)) :
    Ends p stack n m
      { opcode := binaryOpcode op leftType, type := type, dest := m, src1 := l, src2 := r } := by
  have hboth : ∀ v ∈ [l, r], (1 ≤ v ∧ v ≤ p) ∨ (n ≤ v ∧ v < m) := by
    intro v hv
    rcases List.mem_cons.mp hv with rfl | hv
    · exact hl
    · rwa [List.mem_singleton.mp hv]
  cases op with
  | rshift =>
    cases hsign : typeIsUnsigned leftType <;> simp only [binaryOpcode, hsign] <;>
      exact ⟨rfl, hboth, by simp [IRInstruction.slot], ⟨rfl, rfl, by simp⟩, by simp⟩
  | _ =>
    exact ⟨rfl, hboth, by simp [IRInstruction.slot, binaryOpcode],
      ⟨rfl, rfl, by simp [binaryOpcode]⟩, by simp [binaryOpcode]⟩

section

variable {p stack : Nat} {env : Env}

theorem exprSound_unary {op : UnaryOp} {info : NodeInfo} {operand : ASTNode} {n : Nat}
    (ih : ¬ OutOfVregs (lowerExpr env operand n).history →
      ExprSound p stack n (lowerExpr env operand n))
    (hok : ¬ OutOfVregs (lowerExpr env (.unary op info operand) n).history) :
    ExprSound p stack n (lowerExpr env (.unary op info operand) n) := by
  simp only [lowerExpr] at hok ⊢
  split
  · rename_i hzero
    rw [if_pos hzero] at hok
    exact ih hok
  · rename_i hreg
    rw [if_neg hreg] at hok
    have ho := ih (not_outOfVregs_finish hok)
    exact exprSound_finish ho.facts hok (ends_unary (ho.value.usable hreg))

theorem exprSound_binary {op : BinaryOp} {info : NodeInfo} {left right : ASTNode} {n : Nat}
    (ihl : ¬ OutOfVregs (lowerExpr env left n).history →
      ExprSound p stack n (lowerExpr env left n))
    (ihr : ∀ m, ¬ OutOfVregs (lowerExpr env right m).history →
      ExprSound p stack m (lowerExpr env right m))
    (hok : ¬ OutOfVregs (lowerExpr env (.binary op info left right) n).history) :
    ExprSound p stack n (lowerExpr env (.binary op info left right) n) := by
  simp only [lowerExpr] at hok ⊢
  split
  · rename_i hzero
    rw [if_pos hzero] at hok
    exact ihl hok
  · rename_i hlreg
    rw [if_neg hlreg] at hok
    split
    · rename_i hzero
      rw [if_pos hzero] at hok
      have hl := ihl (not_outOfVregs_left hok)
      have hr := ihr _ (not_outOfVregs_right hok)
      exact ⟨hl.facts.append hr.facts, .dropped⟩
    · rename_i hrreg
      rw [if_neg hrreg] at hok
      have hl := ihl (not_outOfVregs_left (not_outOfVregs_finish hok))
      have hr := ihr _ (not_outOfVregs_right (not_outOfVregs_finish hok))
      refine exprSound_finish (hl.facts.append hr.facts) hok (ends_binary ?_ ?_)
      · have := hl.value.usable hlreg
        have := hr.facts.le
        omega
      · have := hr.value.usable hrreg
        have := hl.facts.le
        omega

theorem exprSound_call {info : NodeInfo} {functionName : StringView} {args : List ASTNode}
    {n : Nat}
    (ih : ¬ OutOfVregs (lowerArgs env args n).history →
      ArgsSound p stack n args (lowerArgs env args n))
    (hok : ¬ OutOfVregs (lowerExpr env (.call info functionName args) n).history) :
    ExprSound p stack n (lowerExpr env (.call info functionName args) n) := by
  simp only [lowerExpr] at hok ⊢
  cases hregs : (lowerArgs env args n).regs with
  | none =>
    simp only [hregs] at hok ⊢
    exact ⟨(ih hok).facts, .dropped⟩
  | some regs =>
    simp only [hregs] at hok ⊢
    have ha := ih (not_outOfVregs_finish hok)
    obtain ⟨-, hbounds⟩ := ha.regs regs hregs
    unfold finish at hok ⊢
    split
    · rename_i hfull
      rw [if_pos hfull] at hok
      exact absurd (by simp [OutOfVregs]) hok
    · rename_i hroom
      -- the arguments and the call are one block
      set m := (lowerArgs env args n).next
      set call : IRInstruction :=
        { opcode := .call, type := info.valueType, dest := m, funcName := functionName } with hcall
      have hmem : ∀ inst ∈ argInsts (args.zip regs) 0 ++ [call],
          (inst.opcode = .arg ∧ ((1 ≤ inst.src1 ∧ inst.src1 ≤ p) ∨
            (n ≤ inst.src1 ∧ inst.src1 < m))) ∨ inst = call := by
        intro inst hi
        rcases List.mem_append.mp hi with hi | hi
        · obtain ⟨hop, pr, hpr, hsrc⟩ := mem_argInsts hi
          refine .inl ⟨hop, ?_⟩
          rw [hsrc]
          exact hbounds pr.2 (List.of_mem_zip hpr).2
        · exact .inr (List.mem_singleton.mp hi)
      have hblock := ha.facts.block (t := argInsts (args.zip regs) 0 ++ [call])
        (by omega) ?_ ?_ ?_ ?_ ?_
      · rw [List.append_assoc]
        refine ⟨hblock, .fresh ((lowerArgs env args n).code ++ argInsts (args.zip regs) 0) call
          (List.append_assoc ..).symm rfl ha.facts.le rfl⟩
      · rw [writtenBy_append, writtenBy_argInsts]
        rfl
      · intro inst hi v hv
        rcases hmem inst hi with ⟨hop, hsrc⟩ | rfl
        · simp only [IRInstruction.uses, hop, List.mem_singleton] at hv
          rwa [hv]
        · simp [IRInstruction.uses, hcall] at hv
      · intro inst hi i hslot
        rcases hmem inst hi with ⟨hop, -⟩ | rfl
        · simp [IRInstruction.slot, hop] at hslot
        · simp [IRInstruction.slot, hcall] at hslot
      · intro inst hi
        rcases hmem inst hi with ⟨hop, -⟩ | rfl
        · simp [IRInstruction.labelDef, IRInstruction.target, hop]
        · simp [IRInstruction.labelDef, IRInstruction.target, hcall]
      · rw [argScan_append, argScan_argInsts, Option.bind_some]
        rfl

mutual

/-- The facts hold of every lowered expression. -/
theorem lowerExpr_sound (henv : EnvFits p stack env) : ∀ (node : ASTNode) (n : Nat),
    ¬ OutOfVregs (lowerExpr env node n).history → ExprSound p stack n (lowerExpr env node n)
  | .null, n, _ => .dropped
  | .number info value, n, hok => by
      simp only [lowerExpr] at hok ⊢
      exact exprSound_finish .nil hok
        ⟨rfl, by simp [IRInstruction.uses], by simp [IRInstruction.slot], ⟨rfl, rfl, by simp⟩,
          by simp⟩
  | .identifier info name, n, hok => by
      simp only [lowerExpr] at hok ⊢
      cases hname : env.lookup name with
      | none => exact .dropped
      | some e =>
        have he := henv name e hname
        simp only [hname] at hok ⊢
        split
        · rename_i hstack
          rw [if_pos hstack] at hok he
          refine exprSound_finish .nil hok
            ⟨rfl, by simp [IRInstruction.uses], ?_, ⟨rfl, rfl, by simp⟩, by simp⟩
          intro i hi
          obtain rfl : e.binding.index = i := by simpa [IRInstruction.slot] using hi
          exact he
        · rename_i hstack
          rw [if_neg hstack] at he
          exact ⟨.nil, .param rfl rfl he.1 he.2⟩
  | .unary op info operand, n, hok => exprSound_unary (lowerExpr_sound henv operand n) hok
  | .binary op info left right, n, hok =>
      exprSound_binary (lowerExpr_sound henv left n) (lowerExpr_sound henv right) hok
  | .call info functionName args, n, hok => exprSound_call (lowerArgs_sound henv args n) hok
  | .varDecl _ _ _ _, n, _ => .dropped
  | .assignment _ _ _, n, _ => .dropped
  | .returnStmt _ _, n, _ => .dropped
  | .ifStmt _ _ _ _, n, _ => .dropped
  | .whileStmt _ _ _, n, _ => .dropped
  | .block _ _, n, _ => .dropped
  | .function _ _ _ _ _ _, n, _ => .dropped
  | .translationUnit _ _, n, _ => .dropped

/-- The facts hold of the lowered arguments of a call. -/
theorem lowerArgs_sound (henv : EnvFits p stack env) : ∀ (args : List ASTNode) (n : Nat),
    ¬ OutOfVregs (lowerArgs env args n).history →
      ArgsSound p stack n args (lowerArgs env args n)
  | [], n, _ => ⟨.nil, by simp [lowerArgs]⟩
  | arg :: rest, n, hok => by
      simp only [lowerArgs] at hok ⊢
      split
      · rename_i hzero
        rw [if_pos hzero] at hok
        exact ⟨(lowerExpr_sound henv arg n hok).facts, by simp⟩
      · rename_i hreg
        rw [if_neg hreg] at hok
        have ho := lowerExpr_sound henv arg n (not_outOfVregs_left hok)
        have ha := lowerArgs_sound henv rest _ (not_outOfVregs_right hok)
        refine ⟨ho.facts.append ha.facts, ?_⟩
        intro rs hrs
        obtain ⟨rs', hrs', rfl⟩ := Option.map_eq_some_iff.mp hrs
        obtain ⟨hlen, hbounds⟩ := ha.regs rs' hrs'
        refine ⟨by simp [hlen], ?_⟩
        intro r hr
        show _ ∨ (n ≤ r ∧ r < (lowerArgs env rest (lowerExpr env arg n).next).next)
        rcases List.mem_cons.mp hr with rfl | hr
        · have := ho.value.usable hreg
          have := ha.facts.le
          omega
        · have := hbounds r hr
          have := ho.facts.le
          omega

end

end

end TinyCompile.Ir
