import TinyCompile.Jit.Compile
import TinyCompile.Jit.Encoded
import TinyCompile.Jit.Alloc

set_option autoImplicit false

/-!
# Jit: the encoders as lists of items

An encoder's output depends on the buffer only in jumps, labels and call sites.
`itemsOf` is what an instruction becomes, given the locations; `emitItems` writes
items as the encoders write them; `encodeInst_eq` connects both to `encodeInst`.
-/

namespace TinyCompile.Jit

open TinyCompile.Machine TinyCompile.X86 TinyCompile.Source TinyCompile.Ir

/-- A piece of an instruction's code. -/
inductive Item where
  /-- Bytes that do not depend on addresses. -/
  | code (e : Encoded)
  /-- A jump to a label, taken on a condition or always. -/
  | jump (cond : Option Cond) (labelId : Nat)
  /-- The address of a label. -/
  | label (labelId : Nat)
  /-- `mov rax, imm64` with the address of the named function. -/
  | callSite (name : StringView)

/-- The opcode bytes of a jump. -/
def jumpOpcode : Option Cond → List Byte
  | none => [OP_JMP_REL32]
  | some c => [OP_PREFIX_0F, 0x80 ||| conditionCode c]

/-- The opcode bytes of `mov rax, imm64`. -/
def callSiteOpcode : List Byte := [REX_W, MOV_IMM_R + Reg.rax.code]

/-- The number of bytes of an item. -/
def Item.size : Item → Nat
  | .code e => e.bytes.length
  | .jump c _ => (jumpOpcode c).length + 4
  | .label _ => 0
  | .callSite _ => callSiteOpcode.length + 8

/-- The number of bytes of consecutive items. -/
def itemsSize (items : List Item) : Nat := (items.map Item.size).sum

@[simp] theorem itemsSize_nil : itemsSize [] = 0 := rfl

@[simp] theorem itemsSize_cons (item : Item) (items : List Item) :
    itemsSize (item :: items) = item.size + itemsSize items := by
  simp [itemsSize]

@[simp] theorem itemsSize_append (items items' : List Item) :
    itemsSize (items ++ items') = itemsSize items + itemsSize items' := by
  simp [itemsSize]

/-! ## Emitting items -/

/-- The context and the buffer while items are emitted. -/
structure Asm where
  ctx : JITContext
  out : Out

/-- Emit an item; `buf` is the encoder's buffer. -/
def emitItem (buf : Ptr) (item : Item) (a : Asm) : Asm :=
  match item with
  | .code e => { a with out := emitBytes e.bytes a.out }
  | .jump c labelId =>
      let o := emitBytes (jumpOpcode c) a.out
      if a.out.curr = 0 then { a with out := { o with size := o.size + 4 } }
      else if labelId < maxLabels && a.ctx.labelDefined labelId then
        let rel := relTo o.curr (a.ctx.labelOffset labelId)
        { a with out := emitBytes (leBytes 4 rel.toNat) o }
      else
        { ctx := { a.ctx with patches := ⟨labelId, o.curr⟩ :: a.ctx.patches }
          out := emitBytes (leBytes 4 0) o }
  | .label labelId =>
      if labelId ≥ maxLabels ∨ buf = 0 then a
      else
        let kept := resolvePatches labelId buf a.ctx.patches a.out.mem
        { ctx := { a.ctx with
            labelDefined := Function.update a.ctx.labelDefined labelId true
            labelOffset := Function.update a.ctx.labelOffset labelId buf
            patches := kept.1 }
          out := { a.out with mem := kept.2 } }
  | .callSite name =>
      let o := emitBytes callSiteOpcode a.out
      let callSites :=
        if buf ≠ 0 ∧ a.ctx.callSites.length < a.ctx.callSiteCapacity then
          a.ctx.callSites ++ [⟨o.curr, name⟩]
        else a.ctx.callSites
      { ctx := { a.ctx with callSites := callSites }
        out := emitBytes (leBytes 8 callPlaceholder.toNat) o }

/-- Emit items. -/
def emitItems (buf : Ptr) (items : List Item) (a : Asm) : Asm :=
  items.foldl (fun a item => emitItem buf item a) a

@[simp] theorem emitItems_nil (buf : Ptr) (a : Asm) : emitItems buf [] a = a := rfl

@[simp] theorem emitItems_cons (buf : Ptr) (item : Item) (items : List Item) (a : Asm) :
    emitItems buf (item :: items) a = emitItems buf items (emitItem buf item a) := rfl

theorem emitItems_append (buf : Ptr) (items items' : List Item) (a : Asm) :
    emitItems buf (items ++ items') a = emitItems buf items' (emitItems buf items a) := by
  simp [emitItems]

/-- The bytes of consecutive instructions. -/
def bytesOf (es : List Encoded) : List Byte := es.flatMap (·.bytes)

@[simp] theorem bytesOf_nil : bytesOf [] = [] := rfl

@[simp] theorem bytesOf_cons (e : Encoded) (es : List Encoded) :
    bytesOf (e :: es) = e.bytes ++ bytesOf es := rfl

@[simp] theorem bytesOf_append (es es' : List Encoded) :
    bytesOf (es ++ es') = bytesOf es ++ bytesOf es' := by
  simp [bytesOf]

theorem emitItems_code (buf : Ptr) (es : List Encoded) (a : Asm) :
    emitItems buf (es.map .code) a = { a with out := emitBytes (bytesOf es) a.out } := by
  induction es generalizing a with
  | nil => rfl
  | cons e es ih =>
    rw [List.map_cons, emitItems_cons, ih]
    simp only [emitItem, bytesOf_cons, emitBytes_append]

theorem emitItem_pending (buf : Ptr) (item : Item) (a : Asm) :
    (emitItem buf item a).ctx.pendingCall = a.ctx.pendingCall := by
  cases item with
  | code e => rfl
  | jump c l =>
    simp only [emitItem]
    split
    · rfl
    · split <;> rfl
  | label l =>
    simp only [emitItem]
    split <;> rfl
  | callSite name => rfl

theorem emitItem_size (buf : Ptr) (item : Item) (a : Asm) :
    (emitItem buf item a).out.size = a.out.size + item.size := by
  cases item with
  | code e => simp [emitItem, Item.size, emitBytes_size]
  | jump c l =>
    simp only [emitItem, Item.size]
    split
    · simp only [emitBytes_size]
      omega
    · split <;> simp only [emitBytes_size, leBytes_length] <;> omega
  | label l =>
    simp only [emitItem, Item.size]
    split <;> rfl
  | callSite name =>
    simp only [emitItem, Item.size, emitBytes_size, leBytes_length]
    omega

theorem emitItems_size (buf : Ptr) (items : List Item) (a : Asm) :
    (emitItems buf items a).out.size = a.out.size + itemsSize items := by
  induction items generalizing a with
  | nil => rfl
  | cons item items ih =>
    rw [emitItems_cons, ih, emitItem_size, itemsSize_cons, Nat.add_assoc]

end TinyCompile.Jit
