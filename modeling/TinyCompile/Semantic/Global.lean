import TinyCompile.Source.Ast
import TinyCompile.Source.Errors

set_option autoImplicit false

/-!
# Semantic: functions

`semantic_global_declare_function` and `semantic_global_lookup_function` of
`srcs/semantic/semantic.c`: the table of all functions of a program.
-/

namespace TinyCompile.Semantic

open TinyCompile.Source

/-- `MAX_FUNCTION_COUNT`. -/
def maxFunctionCount : Nat := 256

/-- `FunctionInfo`; `param_count` is the length of the list. -/
structure FunctionInfo where
  name : StringView
  returnType : DataType
  params : List Parameter
  line : Nat
  filename : String
  isPrototype : Bool
  deriving DecidableEq, Repr

/-- `GlobalScope`; `function_count` is the length of the list. -/
structure GlobalScope where
  functions : List FunctionInfo
  deriving DecidableEq, Repr

/-- The global scope of `compile_ctx_init`. -/
def GlobalScope.init : GlobalScope := ⟨[]⟩

/-- `semantic_global_lookup_function`. -/
def semanticGlobalLookupFunction (global : GlobalScope) (name : StringView) :
    Option FunctionInfo :=
  global.functions.find? fun f => svEq f.name name

/-- A definition takes the place of the first entry of its name, a prototype. -/
def define (definition : FunctionInfo) : List FunctionInfo → List FunctionInfo
  | [] => []
  | f :: fs =>
      if svEq f.name definition.name then
        { f with
          isPrototype := false, line := definition.line, filename := definition.filename
          params := definition.params } :: fs
      else f :: define definition fs

/-- How `semantic_global_declare_function` ends: with a new table, or with the message
of an error. -/
abbrev DeclareResult := Except String GlobalScope

/-- `semantic_global_declare_function` on a function with these members. -/
def declareFunction (global : GlobalScope) (f : FunctionInfo) : DeclareResult :=
  if f.params.length > maxParamsPerFunction then
    .error ("too many parameters (max " ++ toString maxParamsPerFunction ++ ")")
  else
    match semanticGlobalLookupFunction global f.name with
    | some existing =>
        if existing.returnType ≠ f.returnType then
          .error ("conflicting return types for function '" ++ svText f.name ++
            "' (previous: " ++ typeName existing.returnType ++ ", now: " ++
            typeName f.returnType ++ ")")
        else if existing.params.length ≠ f.params.length then
          .error ("conflicting types for function '" ++ svText f.name ++
            "' (previous declaration at " ++ existing.filename ++ ":" ++
            toString existing.line ++ " had " ++ toString existing.params.length ++
            " parameters)")
        else if existing.isPrototype then
          if f.isPrototype then .ok global else .ok ⟨define f global.functions⟩
        else if f.isPrototype then .ok global
        else
          .error ("redefinition of function '" ++ svText f.name ++
            "' (previous definition at " ++ existing.filename ++ ":" ++
            toString existing.line ++ ")")
    | none =>
        if global.functions.length ≥ maxFunctionCount then
          .error ("too many functions (max " ++ toString maxFunctionCount ++ ")")
        else .ok ⟨global.functions ++ [f]⟩

/-- `semantic_global_declare_function`. -/
def semanticGlobalDeclareFunction (global : GlobalScope) (errors : ErrorContext)
    (funcNode : ASTNode) (filename : String) : GlobalScope × ErrorContext × Bool :=
  match funcNode with
  | .function info name returnType params _ isPrototype =>
      match declareFunction global ⟨name, returnType, params, info.line, filename, isPrototype⟩ with
      | .ok global => (global, errors, true)
      | .error message =>
          (global, errorAdd errors .semantic .error (some filename) info.line 0 message, false)
  | _ => (global, errors, false)

/-! ## The types of the functions -/

/-- The return type of the function of a name. -/
def GlobalScope.returnType (global : GlobalScope) (name : StringView) : Option DataType :=
  (semanticGlobalLookupFunction global name).map (·.returnType)

/-- A definition changes no return type. -/
theorem returnType_define (f : FunctionInfo) (fs : List FunctionInfo) (name : StringView) :
    GlobalScope.returnType ⟨define f fs⟩ name = GlobalScope.returnType ⟨fs⟩ name := by
  induction fs with
  | nil => rfl
  | cons g fs ih =>
    unfold define
    split
    · simp only [GlobalScope.returnType, semanticGlobalLookupFunction, List.find?_cons]
      split <;> rfl
    · simp only [GlobalScope.returnType, semanticGlobalLookupFunction, List.find?_cons] at ih ⊢
      split
      · rfl
      · exact ih

/-- A declaration that is accepted gives its name a type, unless it has one. -/
theorem declareFunction_returnType {global global' : GlobalScope} {f : FunctionInfo}
    (h : declareFunction global f = .ok global') (name : StringView) :
    global'.returnType name =
      (global.returnType name).or (if f.name = name then some f.returnType else none) := by
  unfold declareFunction at h
  split at h
  · cases h
  split at h
  · -- the name has the type of the declaration already
    rename_i existing hexisting
    split at h
    · cases h
    rename_i htype
    have hsame : global.returnType f.name = some f.returnType := by
      rw [GlobalScope.returnType, hexisting, ← Decidable.not_not.mp htype]
      rfl
    have hkeeps : global'.returnType name = global.returnType name := by
      split at h
      · cases h
      split at h
      · split at h
        · cases h
          rfl
        · cases h
          exact returnType_define f global.functions name
      · split at h
        · cases h
          rfl
        · cases h
    rw [hkeeps]
    by_cases hname : f.name = name
    · subst hname
      rw [hsame]
      rfl
    · rw [if_neg hname, Option.or_none]
  · rename_i hnone
    split at h
    · cases h
    cases h
    simp only [GlobalScope.returnType, semanticGlobalLookupFunction, List.find?_append,
      List.find?_cons, List.find?_nil]
    by_cases hname : f.name = name
    · subst hname
      have hself : svEq f.name f.name = true := by simp
      rw [hself, if_pos rfl]
      cases List.find? (fun g => svEq g.name f.name) global.functions <;> rfl
    · have hother : svEq f.name name = false := by
        rw [Bool.eq_false_iff, Ne, svEq_iff]
        exact hname
      rw [hother, if_neg hname]
      simp

end TinyCompile.Semantic
