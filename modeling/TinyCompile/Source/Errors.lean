import TinyCompile.Source.Types

set_option autoImplicit false

/-!
# Source: the error context

`incs/error_handler.h` and `srcs/error_handler/error_handler.c`.
-/

namespace TinyCompile.Source

/-- `ErrorCategory`. -/
inductive ErrorCategory where
  | lexer | parser | semantic | codegen | system
  deriving DecidableEq, Repr

/-- `ErrorLevel`. -/
inductive ErrorLevel where
  | warning | error | fatal
  deriving DecidableEq, Repr

/-- `ErrorNode`; the list link is the list. -/
structure ErrorNode where
  category : ErrorCategory
  level : ErrorLevel
  message : String
  filename : Option String
  line : Nat
  column : Nat
  deriving DecidableEq, Repr

/-- `ErrorContext`: the recorded nodes, oldest first, and the two counters. -/
structure ErrorContext where
  nodes : List ErrorNode
  errorCount : Nat
  warningCount : Nat
  deriving DecidableEq, Repr

/-- `error_context_init`. -/
def ErrorContext.init : ErrorContext := ⟨[], 0, 0⟩

/-- What `vsnprintf` leaves of a message in the 1024-byte buffer. -/
def truncateMessage (message : String) : String :=
  String.ofList (message.toList.take 1023)

/-- `error_add`. -/
def errorAdd (ctx : ErrorContext) (category : ErrorCategory) (level : ErrorLevel)
    (filename : Option String) (line column : Nat) (message : String) : ErrorContext :=
  let node := ⟨category, level, truncateMessage message, filename, line, column⟩
  match level with
  | .warning =>
      { ctx with nodes := ctx.nodes ++ [node], warningCount := ctx.warningCount + 1 }
  | _ => { ctx with nodes := ctx.nodes ++ [node], errorCount := ctx.errorCount + 1 }

/-- `error_has_errors`. -/
def errorHasErrors (ctx : ErrorContext) : Bool := 0 < ctx.errorCount

@[simp] theorem errorAdd_nodes (ctx : ErrorContext) (category : ErrorCategory)
    (level : ErrorLevel) (filename : Option String) (line column : Nat) (message : String) :
    (errorAdd ctx category level filename line column message).nodes =
      ctx.nodes ++ [⟨category, level, truncateMessage message, filename, line, column⟩] := by
  cases level <;> rfl

/-! ## Added errors -/

/-- Errors were added, and no warnings. -/
def Adds (errors errors' : ErrorContext) : Prop :=
  ∃ added, errors' =
    ⟨errors.nodes ++ added, errors.errorCount + added.length, errors.warningCount⟩

section

variable {errors errors' errors'' : ErrorContext}

theorem Adds.refl (errors : ErrorContext) : Adds errors errors := ⟨[], by simp⟩

theorem Adds.trans (h : Adds errors errors') (h' : Adds errors' errors'') :
    Adds errors errors'' := by
  obtain ⟨added, rfl⟩ := h
  obtain ⟨added', rfl⟩ := h'
  exact ⟨added ++ added', by simp [Nat.add_assoc]⟩

theorem adds_error (errors : ErrorContext) (category : ErrorCategory) {level : ErrorLevel}
    (hlevel : level ≠ .warning) (filename : Option String) (line column : Nat)
    (message : String) :
    Adds errors (errorAdd errors category level filename line column message) := by
  cases level with
  | warning => exact absurd rfl hlevel
  | error => exact ⟨[_], rfl⟩
  | fatal => exact ⟨[_], rfl⟩

theorem Adds.count_le (h : Adds errors errors') : errors.errorCount ≤ errors'.errorCount := by
  obtain ⟨added, rfl⟩ := h
  exact Nat.le_add_right _ _

theorem Adds.kept (h : Adds errors errors') : errors.nodes <+: errors'.nodes := by
  obtain ⟨added, rfl⟩ := h
  exact List.prefix_append _ _

/-- Where no node is new, nothing is. -/
theorem Adds.eq_of_nodes (h : Adds errors errors') (hnodes : errors'.nodes = errors.nodes) :
    errors' = errors := by
  obtain ⟨added, rfl⟩ := h
  obtain rfl : added = [] := List.append_right_eq_self.mp hnodes
  simp

/-- Nothing is new at the end exactly where nothing is new in between. -/
theorem Adds.nodes_iff (h : Adds errors errors') (h' : Adds errors' errors'') :
    errors''.nodes = errors.nodes ↔
      errors'.nodes = errors.nodes ∧ errors''.nodes = errors'.nodes := by
  obtain ⟨added, rfl⟩ := h
  obtain ⟨added', rfl⟩ := h'
  simp

end

end TinyCompile.Source
