import TinyCompile.X86.Exec
import TinyCompile.Jit.Passes

set_option autoImplicit false

/-!
# Jit: sizes

No instruction is longer than the architecture allows, and the code of a function
has fewer than 2^31 bytes.
-/

namespace TinyCompile.Jit

open TinyCompile.Machine TinyCompile.X86 TinyCompile.Source TinyCompile.Ir

/-! ## Lengths of instructions -/

/-- The instructions of a list have legal lengths, and there are at most `n` of them. -/
structure Short (n : Nat) (es : List Encoded) : Prop where
  fits : Fits es
  count : es.length ≤ n

theorem Short.nil {n : Nat} : Short n [] := ⟨by simp [Fits], by simp⟩

theorem Short.append {n m : Nat} {es es' : List Encoded} (h : Short n es) (h' : Short m es') :
    Short (n + m) (es ++ es') := by
  refine ⟨?_, ?_⟩
  · intro e he
    exact (List.mem_append.mp he).elim (h.fits e) (h'.fits e)
  · rw [List.length_append]
    exact Nat.add_le_add h.count h'.count

theorem Short.single {e : Encoded} (h : e.bytes.length ≤ maxInstrLength) : Short 1 [e] :=
  ⟨by simpa [Fits] using h, by simp⟩

theorem Short.cons {n : Nat} {e : Encoded} {es : List Encoded}
    (h : e.bytes.length ≤ maxInstrLength) (hes : Short n es) : Short (n + 1) (e :: es) := by
  have := (Short.single h).append hes
  rwa [Nat.add_comm] at this

theorem Short.mono {n m : Nat} {es : List Encoded} (h : Short n es) (hle : n ≤ m) :
    Short m es := ⟨h.fits, Nat.le_trans h.count hle⟩

/-- Several pieces of code, one for each of several values. -/
theorem Short.flatMap {α : Type} {n : Nat} {f : α → List Encoded} (xs : List α)
    (h : ∀ x, Short n (f x)) : Short (n * xs.length) (xs.flatMap f) := by
  induction xs with
  | nil => exact .nil
  | cons x xs ih =>
    rw [List.flatMap_cons, List.length_cons]
    exact ((h x).append ih).mono (by rw [Nat.mul_succ]; omega)

theorem push_length (reg : Reg) : (push reg).bytes.length ≤ maxInstrLength := by
  simp only [push]
  split <;> simp [maxInstrLength]

theorem pop_length (reg : Reg) : (pop reg).bytes.length ≤ maxInstrLength := by
  simp only [pop]
  split <;> simp [maxInstrLength]

theorem setcc_length (c : Cond) (reg : Reg) :
    (setcc c reg).bytes.length ≤ maxInstrLength := by
  simp only [setcc, setccBytes]
  split <;> simp [maxInstrLength]

theorem loadSignext_length (reg : Reg) (disp : BitVec 32) (size : Nat) :
    (loadSignext reg disp size).bytes.length ≤ maxInstrLength := by
  unfold loadSignext
  split
  · simp [loadByte, maxInstrLength]
  · split
    · simp [loadDword, maxInstrLength]
    · simp [loadParam, maxInstrLength]

theorem storeSized_length (reg : Reg) (disp : BitVec 32) (size : Nat) :
    (storeSized reg disp size).bytes.length ≤ maxInstrLength := by
  unfold storeSized
  split
  · simp [storeByte, maxInstrLength]
  · split
    · simp only [storeDword]
      split <;> simp [maxInstrLength]
    · simp [storeLocal, maxInstrLength]

theorem loadCode_short (dst : Reg) (l : Location) : Short 1 (loadCode dst l) := by
  cases l with
  | none => exact .nil
  | reg r =>
    simp only [loadCode]
    split
    · exact .single (by simp [movRegReg, maxInstrLength])
    · exact .nil
  | stack off => exact .single (by simp [loadParam, maxInstrLength])
  | const c => exact .single (by simp [movImm, maxInstrLength])

theorem storeCode_short (src : Reg) (l : Location) : Short 1 (storeCode src l) := by
  cases l with
  | none => exact .nil
  | reg r =>
    simp only [storeCode]
    split
    · exact .single (by simp [movRegReg, maxInstrLength])
    · exact .nil
  | stack off => exact .single (by simp [storeLocal, maxInstrLength])
  | const c => exact .nil

theorem rightCode_short (tmp : Reg) (l : Location) : Short 1 (rightCode tmp l).1 := by
  cases l with
  | reg r => exact .nil
  | none => exact loadCode_short tmp .none
  | stack off => exact loadCode_short tmp (.stack off)
  | const c => exact loadCode_short tmp (.const c)

theorem binaryCode_short {tmp : Reg} {op : Reg → List Encoded} {n : Nat}
    (h : ∀ r, Short n (op r)) (dest left right : Location) :
    Short (n + 3) (binaryCode tmp op dest left right) :=
  ((((loadCode_short _ _).append (rightCode_short _ _)).append (h _)).append
    (storeCode_short _ _)).mono (by omega)

theorem unaryCode_short {op : List Encoded} {n : Nat} (h : Short n op)
    (dest src : Location) : Short (n + 2) (unaryCode op dest src) :=
  (((loadCode_short _ _).append h).append (storeCode_short _ _)).mono (by omega)

theorem aluRegReg_short (op : AluOp) (r : Reg) : Short 3 [aluRegReg op .rax r] :=
  (Short.single (by simp [aluRegReg, maxInstrLength])).mono (by omega)

theorem compareOps_short (c : Cond) (r : Reg) : Short 3 (compareOps c r) :=
  .cons (by simp [aluRegReg, maxInstrLength]) (.cons (setcc_length _ _)
    (.single (by simp [movzxRegReg, maxInstrLength])))

theorem shiftCode_short (op : ShiftOp) (dest left right : Location) :
    Short 9 (shiftCode op dest left right) :=
  ((((loadCode_short _ _).append (loadCode_short _ _)).append
    (.single (by simp [shiftRax, maxInstrLength]))).append (storeCode_short _ _)).mono (by omega)

theorem divCode_short (dest left right : Location) : Short 9 (divCode dest left right) :=
  (((((loadCode_short _ _).append (.single (by simp [cqo, maxInstrLength]))).append
    (rightCode_short _ _)).append (.single (by simp [idiv, maxInstrLength]))).append
    (storeCode_short _ _)).mono (by omega)

theorem movCode_short (dest src : Location) : Short 9 (movCode dest src) := by
  have h : Short 9 (unaryCode [] dest src) := (unaryCode_short (n := 0) .nil _ _).mono (by omega)
  unfold movCode
  split
  · split
    · exact .nil
    · exact h
  · exact h

theorem epilogueCode_short : Short 8 epilogueCode :=
  .cons (by simp [leaRspSaved, maxInstrLength]) (.cons (pop_length _) (.cons (pop_length _)
    (.cons (pop_length _) (.cons (pop_length _) (.cons (pop_length _) (.cons (pop_length _)
      (.single (by simp [ret, maxInstrLength]))))))))

theorem straightCode_short (loc : Nat → Location) (inst : IRInstruction) :
    Short 9 (straightCode loc inst) := by
  have halu : ∀ op : AluOp, Short 9 (binaryCode .rdx (fun r => [aluRegReg op .rax r])
      (loc inst.dest) (loc inst.src1) (loc inst.src2)) :=
    fun op => (binaryCode_short (aluRegReg_short op) _ _ _).mono (by omega)
  have hcmp : Short 9 (binaryCode .rcx (compareOps (cmpCondition inst.opcode))
      (loc inst.dest) (loc inst.src1) (loc inst.src2)) :=
    (binaryCode_short (compareOps_short _) _ _ _).mono (by omega)
  cases hop : inst.opcode <;> simp only [straightCode, hop] <;> try exact .nil
  case add | sub | band | bor | bxor => exact halu _
  case eq | neq | lt | le | gt | ge =>
    rw [hop] at hcmp
    exact hcmp
  case lshift | rshift | urshift => exact shiftCode_short _ _ _ _
  case mul =>
    exact (binaryCode_short (n := 1)
      (fun r => .single (by simp [imulRegReg, maxInstrLength])) _ _ _).mono (by omega)
  case div => exact divCode_short _ _ _
  case bnot =>
    exact (unaryCode_short (.single (by simp [notRax, maxInstrLength])) _ _).mono (by omega)
  case neg =>
    exact (unaryCode_short (.single (by simp [negRax, maxInstrLength])) _ _).mono (by omega)
  case not =>
    exact (unaryCode_short (.cons (by simp [cmpRaxZero, maxInstrLength]) (.cons (setcc_length _ _)
      (.single (by simp [movzxRegReg, maxInstrLength])))) _ _).mono (by omega)
  case mov => exact movCode_short _ _
  case load =>
    unfold loadLocalCode
    split
    · exact (Short.single (loadSignext_length _ _ _)).mono (by omega)
    · exact (Short.cons (loadSignext_length _ _ _) (storeCode_short _ _)).mono (by omega)
  case store =>
    unfold storeLocalCode
    split
    · exact (Short.single (storeSized_length _ _ _)).mono (by omega)
    · exact ((loadCode_short _ _).append (.single (storeSized_length _ _ _))).mono (by omega)
  case const =>
    exact (Short.cons (by simp [movImm, maxInstrLength]) (storeCode_short _ _)).mono (by omega)
  case ret => exact ((loadCode_short _ _).append epilogueCode_short).mono (by omega)

theorem testCode_short (l : Location) : Short 2 (testCode l) := by
  unfold testCode
  split
  · exact (Short.single (by simp [testRegReg, maxInstrLength])).mono (by omega)
  · exact (loadCode_short _ _).append (.single (by simp [cmpRaxZero, maxInstrLength]))

theorem pushStackArg_short (l : Location) : Short 2 (pushStackArg l) :=
  (loadCode_short _ _).append (.single (push_length _))

theorem pushRegArg_short (l : Location) : Short 2 (pushRegArg l) := by
  unfold pushRegArg
  split
  · exact (Short.single (push_length _)).mono (by omega)
  · exact (loadCode_short _ _).append (.single (push_length _))

theorem argumentCode_short (loc : Nat → Location) {pending : List Nat}
    (h : pending.length ≤ maxParamsPerFunction) : Short 75 (argumentCode loc pending) := by
  have hlimit : maxParamsPerFunction = 32 := rfl
  have hpad : Short 1 (padCode pending) := by
    unfold padCode
    split
    · exact .single (by simp [subRsp, rspImmBytes, maxInstrLength])
    · exact .nil
  have hstack : Short 52 ((pending.drop 6).reverse.flatMap fun v => pushStackArg (loc v)) :=
    (Short.flatMap _ fun v => pushStackArg_short (loc v)).mono (by simp; omega)
  have hregs : Short 12 ((pending.take 6).reverse.flatMap fun v => pushRegArg (loc v)) :=
    (Short.flatMap _ fun v => pushRegArg_short (loc v)).mono (by simp; omega)
  have hpops : Short 10 ((argRegisters.take (pending.take 6).length).map pop) := by
    refine ⟨?_, ?_⟩
    · intro e he
      obtain ⟨reg, -, rfl⟩ := List.mem_map.mp he
      exact pop_length reg
    · rw [List.length_map, List.length_take]
      exact Nat.min_le_right _ _
  exact ((hpad.append hstack).append hregs).append hpops

theorem cleanupCode_short (pending : List Nat) (dest : Location) :
    Short 2 (cleanupCode pending dest) := by
  unfold cleanupCode
  refine Short.append (n := 1) ?_ (storeCode_short _ _)
  split
  · exact .single (by simp [addRsp, rspImmBytes, maxInstrLength])
  · exact .nil

/-! ## Lengths of items -/

/-- The items of a list have legal lengths, and there are at most `n` of them. -/
structure ShortItems (n : Nat) (items : List Item) : Prop where
  fits : ∀ item ∈ items, item.size ≤ maxInstrLength
  count : items.length ≤ n

theorem Short.items {n : Nat} {es : List Encoded} (h : Short n es) :
    ShortItems n (es.map .code) := by
  refine ⟨?_, by rw [List.length_map]; exact h.count⟩
  intro item hi
  obtain ⟨e, he, rfl⟩ := List.mem_map.mp hi
  exact h.fits e he

theorem ShortItems.append {n m : Nat} {items items' : List Item} (h : ShortItems n items)
    (h' : ShortItems m items') : ShortItems (n + m) (items ++ items') := by
  refine ⟨?_, ?_⟩
  · intro item hi
    exact (List.mem_append.mp hi).elim (h.fits item) (h'.fits item)
  · rw [List.length_append]
    exact Nat.add_le_add h.count h'.count

theorem ShortItems.single {item : Item} (h : item.size ≤ maxInstrLength) :
    ShortItems 1 [item] := ⟨by simpa using h, by simp⟩

theorem ShortItems.mono {n m : Nat} {items : List Item} (h : ShortItems n items)
    (hle : n ≤ m) : ShortItems m items := ⟨h.fits, Nat.le_trans h.count hle⟩

theorem ShortItems.size {n : Nat} {items : List Item} (h : ShortItems n items) :
    itemsSize items ≤ 15 * n := by
  have hall : itemsSize items ≤ 15 * items.length := by
    have hfits := h.fits
    clear h
    induction items with
    | nil => simp
    | cons item items ih =>
      have hitem : item.size ≤ 15 := hfits item (by simp)
      have := ih fun i hi => hfits i (by simp [hi])
      rw [itemsSize_cons, List.length_cons]
      omega
  have := Nat.mul_le_mul_left 15 h.count
  omega

/-- The items of every instruction are short. -/
theorem itemsOf_short (loc : Nat → Location) {pending : List Nat} (inst : IRInstruction)
    (h : pending.length ≤ maxParamsPerFunction) : ShortItems 80 (itemsOf loc pending inst) := by
  have hjump : ∀ c l, (Item.jump c l).size ≤ maxInstrLength := by
    intro c l
    cases c <;> simp [Item.size, jumpOpcode, maxInstrLength]
  have hbranch : ∀ c l src, ShortItems 80
      ((testCode (loc src)).map .code ++ [.jump c l]) := fun c l src =>
    ((testCode_short _).items.append (.single (hjump c l))).mono (by omega)
  have hstraight := ((straightCode_short loc inst).items).mono (show 9 ≤ 80 by omega)
  cases hop : inst.opcode <;> simp only [itemsOf, hop] <;> try exact hstraight
  case arg => exact ⟨by simp, by simp⟩
  case label => exact (ShortItems.single (by simp [Item.size])).mono (by omega)
  case jmp => exact (ShortItems.single (hjump _ _)).mono (by omega)
  case jz | jnz => exact hbranch _ _ _
  case call =>
    have hcall : Short 3 (callRax :: cleanupCode pending (loc inst.dest)) :=
      .cons (by simp [callRax, maxInstrLength]) (cleanupCode_short _ _)
    have hsite : (Item.callSite inst.funcName).size ≤ maxInstrLength := by
      simp [Item.size, callSiteOpcode, maxInstrLength]
    have := (argumentCode_short loc h).items.append ((ShortItems.single hsite).append hcall.items)
    exact this.mono (by omega)

theorem frameCode_short (stackSize : Nat) : Short 8 (frameCode stackSize) := by
  unfold frameCode
  refine Short.append (n := 7) (m := 1) ?_ ?_
  · exact .cons (push_length _) (.cons (by simp [movRegReg, maxInstrLength])
      (.cons (push_length _) (.cons (push_length _) (.cons (push_length _)
      (.cons (push_length _) (.single (push_length _)))))))
  · split
    · exact .single (by simp [subRsp, rspImmBytes, maxInstrLength])
    · exact .nil

theorem paramCode_short (i : Nat) (l : Location) : Short 2 (paramCode i l) := by
  unfold paramCode
  split
  · split
    · split
      · exact (Short.single (by simp [movRegReg, maxInstrLength])).mono (by omega)
      · exact .nil
    · exact (Short.single (by simp [storeLocal, maxInstrLength])).mono (by omega)
    · exact .nil
  · split
    · exact (Short.single (by simp [loadParam, maxInstrLength])).mono (by omega)
    · exact .cons (by simp [loadParam, maxInstrLength])
        (.single (by simp [storeLocal, maxInstrLength]))
    · exact .cons (by simp [loadParam, maxInstrLength])
        (.single (by simp [storeLocal, maxInstrLength]))

theorem prologueCode_short (loc : Nat → Location) (stackSize paramCount : Nat) :
    Short (8 + 2 * paramCount) (prologueCode loc stackSize paramCount) := by
  refine (frameCode_short stackSize).append ?_
  have := Short.flatMap (List.range' 0 paramCount)
    fun k => paramCode_short k (loc (k + 1))
  rwa [List.length_range'] at this

end TinyCompile.Jit
