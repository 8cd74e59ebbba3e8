import TinyCompile.Source.Integers

set_option autoImplicit false

/-!
# Source: programs in C

What C says a tree does, in unbounded integers.  A block ends the scope of what it declares,
and so does the branch of a statement; a declaration is in scope in its own initializer.  A
tree comes to nothing where C leaves something open, where a variable is read that was not
written, and where a function returns no value.
-/

namespace TinyCompile.Source

open TinyCompile.Logic

/-! ## Variables -/

/-- A variable in scope, and its value once it has one. -/
structure Variable where
  name : StringView
  type : DataType
  isLocal : Bool
  value : Option Int

/-- The variables in scope, innermost first. -/
abbrev Frame := List Variable

namespace Frame

/-- The variable a name stands for. -/
def find (F : Frame) (name : StringView) : Option Variable :=
  List.find? (fun v => v.name == name) F

/-- Write to the variable a name stands for. -/
def set : Frame → StringView → Int → Frame
  | [], _, _ => []
  | v :: F, name, z =>
      if v.name == name then { v with value := some z } :: F else v :: set F name z

/-- What is left of the variables `F'` behind a block that began with `F`. -/
def leave (F F' : Frame) : Frame := F'.drop (F'.length - F.length)

end Frame

/-- How a statement ends. -/
inductive Ending where
  /-- The next statement follows. -/
  | next (F : Frame)
  /-- The function returns. -/
  | returned (z : Int)

namespace Ending

/-- Go on behind a statement, unless it returned. -/
def andThen (o : Option Ending) (f : Frame → Option Ending) : Option Ending :=
  o.bind fun r =>
    match r with
    | .next F => f F
    | .returned z => some (.returned z)

/-- Leave a block that began with `F`. -/
def leave (F : Frame) : Ending → Ending
  | .next F' => .next (F.leave F')
  | .returned z => .returned z

end Ending

/-! ## Trees -/

section

variable (L : Limits) (callee : StringView → List Int → Option Value)

mutual

/-- The value of an expression.  Whether it is `seen` is nothing C asks for. -/
def exactExpr (F : Frame) (seen : Bool) : ASTNode → Option Value
  | .number _ value => literalValue value
  | .identifier _ name =>
      (F.find name).bind fun v =>
        v.value.bind fun z =>
          if seen || L.unseen v.type v.isLocal then some ⟨v.type, z⟩ else none
  | .call _ functionName args => (exactArgs F seen args).bind (callee functionName)
  | .unary op _ operand => (exactExpr F seen operand).bind (L.unary op)
  | .binary op _ left right =>
      (exactExpr F (seen && op != .greater) left).bind fun a =>
        (exactExpr F (seen && op != .greater) right).bind (L.binary op a)
  | _ => none

/-- The values of the arguments of a call. -/
def exactArgs (F : Frame) (seen : Bool) : List ASTNode → Option (List Int)
  | [] => some []
  | arg :: rest =>
      (exactExpr F seen arg).bind fun v => (exactArgs F seen rest).map (v.value :: ·)

end

/-- The value of an initializer, if there is one. -/
def exactInit (F : Frame) (type : DataType) (initializer : ASTNode) : Option (Option Int) :=
  if initializer.isNull then some none
  else (exactExpr L callee F true initializer).bind fun v =>
    if L.stored type true v.value then some (some v.value) else none

/-- A turn of a loop. -/
def exactTurn (F : Frame) (condition : Option Value) (body : Frame → Option Ending) :
    Option (Turn Frame Ending) :=
  condition.bind fun v =>
    if v.value = 0 then some (.leave (.next F))
    else (body F).map fun o =>
      match o with
      | .next F' => .again (F.leave F')
      | .returned z => .leave (.returned z)

mutual

/-- Execute a statement of a function that returns `ret`; every loop in it makes at most
`fuel` turns. -/
def exactStmt (ret : DataType) (fuel : Nat) : ASTNode → Frame → Option Ending
  | .null, F => some (.next F)
  | .varDecl _ varName varType initializer, F =>
      (exactInit L callee (⟨varName, varType, true, none⟩ :: F) varType initializer).map fun z =>
        .next (⟨varName, varType, true, z⟩ :: F)
  | .assignment _ varName value, F =>
      (F.find varName).bind fun x =>
        (exactExpr L callee F true value).bind fun v =>
          if L.stored x.type x.isLocal v.value then some (.next (F.set varName v.value)) else none
  | .returnStmt _ expression, F =>
      (exactExpr L callee F true expression).bind fun v =>
        if L.expression ret v.value then some (.returned v.value) else none
  | .block _ statements, F => (exactStmts ret fuel statements F).map (Ending.leave F)
  | .ifStmt _ condition thenBranch elseBranch, F =>
      (exactExpr L callee F true condition).bind fun v =>
        if v.value ≠ 0 then (exactStmt ret fuel thenBranch F).map (Ending.leave F)
        else (exactStmt ret fuel elseBranch F).map (Ending.leave F)
  | .whileStmt _ condition body, F =>
      iterate (fun F => exactTurn F (exactExpr L callee F true condition) fun F =>
        exactStmt ret fuel body F) fuel F
  | node, F => (exactExpr L callee F true node).map fun _ => .next F

/-- Execute the statements of a block in order. -/
def exactStmts (ret : DataType) (fuel : Nat) : List ASTNode → Frame → Option Ending
  | [], F => some (.next F)
  | stmt :: rest, F =>
      Ending.andThen (exactStmt ret fuel stmt F) (exactStmts ret fuel rest)

end

/-- The parameters of a function in scope, if the arguments are values of theirs. -/
def exactParams : Frame → List Parameter → List Int → Option Frame
  | F, [], [] => some F
  | F, param :: params, z :: args =>
      if L.stored param.type false z then
        exactParams (⟨param.name, param.type, false, some z⟩ :: F) params args
      else none
  | _, _, _ => none

/-- The value a function returns. -/
def exactBody (fuel : Nat) (func : ASTNode) (args : List Int) : Option Value :=
  match func with
  | .function _ _ returnType params (.block _ statements) _ =>
      (exactParams L [] params args).bind fun F =>
        (exactStmts L callee returnType fuel statements F).bind fun r =>
          match r with
          | .next _ => none
          | .returned z => some ⟨returnType, z⟩
  | _ => none

end

/-- The value of a call, with calls nested at most so deep. -/
def exactCall (L : Limits) (functions : StringView → Option ASTNode) (fuel : Nat) :
    Nat → StringView → List Int → Option Value
  | 0, _, _ => none
  | depth + 1, name, args =>
      (functions name).bind fun func =>
        exactBody L (exactCall L functions fuel depth) fuel func args

/-! ## Wider limits -/

section

variable {L L' : Limits} {callee callee' : StringView → List Int → Option Value}

mutual

/-- Wider limits change no value. -/
theorem exactExpr_extends (hwithin : L.Within L')
    (hcallee : ∀ name args, Extends (callee name args) (callee' name args)) (F : Frame) :
    ∀ (node : ASTNode) (seen : Bool),
    Extends (exactExpr L callee F seen node) (exactExpr L' callee' F seen node)
  | .number _ _, _ => .refl _
  | .identifier _ _, seen => by
      refine .bind (.refl _) fun v => .bind (.refl _) fun z => .guard ?_ (.refl _)
      rw [Bool.or_eq_true, Bool.or_eq_true]
      exact Or.imp_right hwithin.unseen
  | .call _ _ args, seen => .bind (exactArgs_extends hwithin hcallee F args seen) (hcallee _)
  | .unary op _ operand, seen =>
      .bind (exactExpr_extends hwithin hcallee F operand seen) fun _ => hwithin.unary op
  | .binary op _ left right, _ =>
      .bind (exactExpr_extends hwithin hcallee F left _) fun _ =>
        .bind (exactExpr_extends hwithin hcallee F right _) fun _ => hwithin.binary op
  | .null, _ => .none _
  | .varDecl _ _ _ _, _ => .none _
  | .assignment _ _ _, _ => .none _
  | .returnStmt _ _, _ => .none _
  | .ifStmt _ _ _ _, _ => .none _
  | .whileStmt _ _ _, _ => .none _
  | .block _ _, _ => .none _
  | .function _ _ _ _ _ _, _ => .none _
  | .translationUnit _ _, _ => .none _

theorem exactArgs_extends (hwithin : L.Within L')
    (hcallee : ∀ name args, Extends (callee name args) (callee' name args)) (F : Frame) :
    ∀ (nodes : List ASTNode) (seen : Bool),
    Extends (exactArgs L callee F seen nodes) (exactArgs L' callee' F seen nodes)
  | [], _ => .refl _
  | node :: nodes, seen =>
      .bind (exactExpr_extends hwithin hcallee F node seen) fun _ =>
        .map (exactArgs_extends hwithin hcallee F nodes seen) _

end

theorem exactInit_extends (hwithin : L.Within L')
    (hcallee : ∀ name args, Extends (callee name args) (callee' name args)) (F : Frame)
    (type : DataType) (initializer : ASTNode) :
    Extends (exactInit L callee F type initializer) (exactInit L' callee' F type initializer) :=
  .ite (.refl _) (.bind (exactExpr_extends hwithin hcallee F initializer true) fun _ =>
    .guard hwithin.stored (.refl _))

theorem exactTurn_extends {F : Frame} {condition condition' : Option Value}
    {body body' : Frame → Option Ending} (hcondition : Extends condition condition')
    (hbody : ∀ F, Extends (body F) (body' F)) :
    Extends (exactTurn F condition body) (exactTurn F condition' body') :=
  .bind hcondition fun _ => .ite (.refl _) (.map (hbody F) _)

mutual

/-- Wider limits change the end of no statement. -/
theorem exactStmt_extends (hwithin : L.Within L')
    (hcallee : ∀ name args, Extends (callee name args) (callee' name args))
    (ret : DataType) (fuel : Nat) : ∀ (node : ASTNode) (F : Frame),
    Extends (exactStmt L callee ret fuel node F) (exactStmt L' callee' ret fuel node F)
  | .null, _ => .refl _
  | .varDecl _ _ _ _, _ => .map (exactInit_extends hwithin hcallee _ _ _) _
  | .assignment _ _ value, F =>
      .bind (.refl _) fun _ => .bind (exactExpr_extends hwithin hcallee F value true) fun _ =>
        .guard hwithin.stored (.refl _)
  | .returnStmt _ expression, F =>
      .bind (exactExpr_extends hwithin hcallee F expression true) fun _ =>
        .guard hwithin.expression (.refl _)
  | .block _ statements, F => .map (exactStmts_extends hwithin hcallee ret fuel statements F) _
  | .ifStmt _ condition thenBranch elseBranch, F =>
      .bind (exactExpr_extends hwithin hcallee F condition true) fun _ =>
        .ite (.map (exactStmt_extends hwithin hcallee ret fuel thenBranch F) _)
          (.map (exactStmt_extends hwithin hcallee ret fuel elseBranch F) _)
  | .whileStmt _ condition body, F =>
      .iterate (fun F => exactTurn_extends (exactExpr_extends hwithin hcallee F condition true)
        (exactStmt_extends hwithin hcallee ret fuel body)) fuel F
  | .number _ _, F => .map (exactExpr_extends hwithin hcallee F _ true) _
  | .identifier _ _, F => .map (exactExpr_extends hwithin hcallee F _ true) _
  | .binary _ _ _ _, F => .map (exactExpr_extends hwithin hcallee F _ true) _
  | .unary _ _ _, F => .map (exactExpr_extends hwithin hcallee F _ true) _
  | .call _ _ _, F => .map (exactExpr_extends hwithin hcallee F _ true) _
  | .function _ _ _ _ _ _, _ => .none _
  | .translationUnit _ _, _ => .none _

theorem exactStmts_extends (hwithin : L.Within L')
    (hcallee : ∀ name args, Extends (callee name args) (callee' name args))
    (ret : DataType) (fuel : Nat) : ∀ (nodes : List ASTNode) (F : Frame),
    Extends (exactStmts L callee ret fuel nodes F) (exactStmts L' callee' ret fuel nodes F)
  | [], _ => .refl _
  | node :: nodes, F => .bind (exactStmt_extends hwithin hcallee ret fuel node F) fun r => by
      cases r with
      | next F' => exact exactStmts_extends hwithin hcallee ret fuel nodes F'
      | returned z => exact .refl _

end

theorem exactParams_extends (hwithin : L.Within L') :
    ∀ (F : Frame) (params : List Parameter) (args : List Int),
    Extends (exactParams L F params args) (exactParams L' F params args)
  | _, [], [] => .refl _
  | _, _ :: params, _ :: args => .guard hwithin.stored (exactParams_extends hwithin _ params args)
  | _, [], _ :: _ => .refl _
  | _, _ :: _, [] => .refl _

theorem exactBody_extends (hwithin : L.Within L')
    (hcallee : ∀ name args, Extends (callee name args) (callee' name args))
    (fuel : Nat) (func : ASTNode) (args : List Int) :
    Extends (exactBody L callee fuel func args) (exactBody L' callee' fuel func args) := by
  unfold exactBody
  split
  · exact .bind (exactParams_extends hwithin _ _ _) fun F =>
      .bind (exactStmts_extends hwithin hcallee _ _ _ F) fun _ => .refl _
  · exact .refl _

/-- Wider limits change the value of no call. -/
theorem exactCall_extends (hwithin : L.Within L') (functions : StringView → Option ASTNode)
    (fuel depth : Nat)
    (name : StringView) (args : List Int) : Extends (exactCall L functions fuel depth name args)
      (exactCall L' functions fuel depth name args) := by
  induction depth generalizing name args with
  | zero => exact .none _
  | succ depth ih => exact .bind (.refl _) fun func => exactBody_extends hwithin ih fuel func args

end

end TinyCompile.Source
