import TinyCompile.Ir.Machine

set_option autoImplicit false

/-!
# Ir: what a tree means to the generator

The values of expressions and the effects of statements, read off the tree and the names in
scope, without registers, labels and instructions.  Where the generator gives an expression
up, what stands before that place is still evaluated and there is no value; the statement
around it then does nothing more.
-/

namespace TinyCompile.Ir

open TinyCompile.Machine TinyCompile.Source TinyCompile.Logic

/-! ## Stores -/

/-- What a function works on: its parameters by register, its locals by slot, and the calls
made so far. -/
structure Store where
  params : Nat → Word
  slots : Nat → Word
  calls : List Call

namespace Store

/-- The value of a variable; `type` is what its occurrence was annotated with. -/
def read (m : Store) (b : SymbolTable.Binding) (type : DataType) : Word :=
  if b.isStack then loadSlot (typeSize type) (m.slots b.index) else m.params b.index

/-- Store to a local slot. -/
def setSlot (m : Store) (type : DataType) (i : Nat) (v : Word) : Store :=
  { m with slots := Function.update m.slots i (storeSlot (typeSize type) (m.slots i) v) }

/-- Assign to a variable. -/
def write (m : Store) (b : SymbolTable.Binding) (type : DataType) (v : Word) : Store :=
  if b.isStack then m.setSlot type b.index v
  else { m with params := Function.update m.params b.index v }

end Store

/-! ## Expressions -/

/-- What an expression comes to, if it does not trap: its value, unless it is given up, and
the store. -/
abbrev Evaluation (α : Type) := Option (Option α × Store)

/-- Go on with a value, if there is one. -/
def Evaluation.withValue {α β : Type} (x : Evaluation α) (f : α → Store → Evaluation β) :
    Evaluation β :=
  x.bind fun r =>
    match r.1 with
    | some v => f v r.2
    | none => some (none, r.2)

section

variable (oracle : Oracle)

mutual

/-- Evaluate an expression. -/
def evalExpr (env : Env) : ASTNode → Store → Evaluation Word
  | .number _ value, m => some (some (svToInt64 value), m)
  | .identifier info name, m =>
      some ((env.lookup name).map fun e => m.read e.binding info.valueType, m)
  | .call _ functionName args, m =>
      (evalArgs env args m).withValue fun vs m =>
        (oracle ⟨functionName, vs⟩).map fun v =>
          (some v, { m with calls := m.calls ++ [⟨functionName, vs⟩] })
  | .unary op _ operand, m =>
      (evalExpr env operand m).withValue fun a m =>
        (evalOp a 0 (unaryOpcode op)).map fun v => (some v, m)
  | .binary op _ left right, m =>
      (evalExpr env left m).withValue fun a m =>
        (evalExpr env right m).withValue fun b m =>
          (evalOp a b (binaryOpcode op (typeOf left))).map fun v => (some v, m)
  | _, m => some (none, m)

/-- Evaluate the arguments of a call, left to right. -/
def evalArgs (env : Env) : List ASTNode → Store → Evaluation (List Word)
  | [], m => some (some [], m)
  | arg :: rest, m =>
      (evalExpr env arg m).withValue fun v m =>
        (evalArgs env rest m).withValue fun vs m => some (some (v :: vs), m)

end

/-! ## Which expressions have a value -/

mutual

/-- The generator does not give the expression up. -/
def hasValue (env : Env) : ASTNode → Bool
  | .number _ _ => true
  | .identifier _ name => (env.lookup name).isSome
  | .call _ _ args => haveValues env args
  | .unary _ _ operand => hasValue env operand
  | .binary _ _ left right => hasValue env left && hasValue env right
  | _ => false

/-- The generator gives none of the arguments up. -/
def haveValues (env : Env) : List ASTNode → Bool
  | [] => true
  | arg :: rest => hasValue env arg && haveValues env rest

end

/-! ## The names behind a statement -/

mutual

/-- The names in scope behind a statement, and the number of slots taken.  Only a block
takes its names back. -/
def scopeStmt (env : Env) : ASTNode → Nat → Env × Nat
  | .varDecl info varName varType _, stack =>
      ((varName, ⟨.var info.addr, varType, ⟨stack, true⟩⟩) :: env, stack + 1)
  | .block _ statements, stack => (env, (scopeStmts env statements stack).2)
  | .ifStmt _ condition thenBranch elseBranch, stack =>
      if hasValue env condition then
        let t := scopeStmt env thenBranch stack
        if elseBranch.isNull then t else scopeStmt t.1 elseBranch t.2
      else (env, stack)
  | .whileStmt _ condition body, stack =>
      if hasValue env condition then scopeStmt env body stack else (env, stack)
  | _, stack => (env, stack)

/-- The names in scope behind the statements of a block, and the number of slots taken. -/
def scopeStmts (env : Env) : List ASTNode → Nat → Env × Nat
  | [], stack => (env, stack)
  | stmt :: rest, stack =>
      let t := scopeStmt env stmt stack
      scopeStmts t.1 rest t.2

end

/-! ## Statements -/

/-- How a statement ends. -/
inductive Outcome where
  /-- The next statement follows. -/
  | next (m : Store)
  /-- The function returns. -/
  | returned (v : Word) (m : Store)

/-- Go on behind a statement, unless it returned. -/
def Outcome.andThen (o : Option Outcome) (f : Store → Option Outcome) : Option Outcome :=
  o.bind fun r =>
    match r with
    | .next m => f m
    | .returned v m => some (.returned v m)

/-- A statement with a value; there is nothing more to it where the value was given up. -/
def withValue (x : Evaluation Word) (f : Word → Store → Option Outcome) : Option Outcome :=
  x.bind fun r =>
    match r.1 with
    | some v => f v r.2
    | none => some (.next r.2)

/-- The initial value of a declared variable. -/
def evalInit (env : Env) (initializer : ASTNode) (m : Store) : Evaluation Word :=
  if initializer.isNull then some (some 0, m) else evalExpr oracle env initializer m

/-- A turn of a loop. -/
def loopTurn (condition : Evaluation Word) (body : Store → Option Outcome) :
    Option (Turn Store Outcome) :=
  condition.bind fun r =>
    match r.1 with
    | none => some (.leave (.next r.2))
    | some v =>
        if v = 0 then some (.leave (.next r.2))
        else (body r.2).map fun o =>
          match o with
          | .next m => .again m
          | .returned v m => .leave (.returned v m)

mutual

/-- Execute a statement; every loop in it makes at most `fuel` turns. -/
def evalStmt (fuel : Nat) (env : Env) : ASTNode → Nat → Store → Option Outcome
  | .null, _, m => some (.next m)
  | .varDecl info varName varType initializer, stack, m =>
      withValue (evalInit oracle ((varName, ⟨.var info.addr, varType, ⟨stack, true⟩⟩) :: env)
        initializer m) fun v m => some (.next (m.setSlot varType stack v))
  | .assignment info varName value, _, m =>
      match env.lookup varName with
      | none => some (.next m)
      | some e =>
          withValue (evalExpr oracle env value m) fun v m =>
            some (.next (m.write e.binding info.valueType v))
  | .returnStmt _ expression, _, m =>
      if expression.isNull then some (.next m)
      else withValue (evalExpr oracle env expression m) fun v m => some (.returned v m)
  | .block _ statements, stack, m => evalStmts fuel env statements stack m
  | .ifStmt _ condition thenBranch elseBranch, stack, m =>
      withValue (evalExpr oracle env condition m) fun v m =>
        if v ≠ 0 then evalStmt fuel env thenBranch stack m
        else if elseBranch.isNull then some (.next m)
        else
          -- the names of the first branch stay in scope
          let t := scopeStmt env thenBranch stack
          evalStmt fuel t.1 elseBranch t.2 m
  | .whileStmt _ condition body, stack, m =>
      iterate (fun m => loopTurn (evalExpr oracle env condition m) fun m =>
        evalStmt fuel env body stack m) fuel m
  | node, _, m => withValue (evalExpr oracle env node m) fun _ m => some (.next m)

/-- Execute the statements of a block in order. -/
def evalStmts (fuel : Nat) (env : Env) : List ASTNode → Nat → Store → Option Outcome
  | [], _, m => some (.next m)
  | stmt :: rest, stack, m =>
      Outcome.andThen (evalStmt fuel env stmt stack m) fun m =>
        let t := scopeStmt env stmt stack
        evalStmts fuel t.1 rest t.2 m

end

end

end TinyCompile.Ir
