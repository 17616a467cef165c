import TapeFlow.Graph.Module
import TapeFlow.Json.Shape

/-!
# The JSON form of modules

Blocks, functions, declarations and modules are records.  An instruction or a
terminator is a choice, and what is said about an instruction is the array of
its parts.  Registers and block numbers are plain numbers.
-/

namespace TapeFlow

namespace Ty

/-- The name of a type in JSON. -/
def jsonName : Ty → String
  | i1 => "I1"
  | i8 => "I8"
  | i32 => "I32"
  | i64 => "I64"
  | ptr => "Ptr"
  | void => "Void"

/-- The type with a name. -/
def ofJsonName? : String → Option Ty
  | "I1" => some i1
  | "I8" => some i8
  | "I32" => some i32
  | "I64" => some i64
  | "Ptr" => some ptr
  | "Void" => some void
  | _ => none

/-- A type as JSON. -/
def toJson (ty : Ty) : Json := .ofString ty.jsonName

/-- A type from JSON. -/
def ofJson? (j : Json) : Option Ty := j.unit?.bind ofJsonName?

end Ty

/-- A register as JSON. -/
def Reg.toJson (r : Reg) : Json := .ofInt r.index.toNat

/-- A register from JSON. -/
def Reg.ofJson? (j : Json) : Option Reg := j.uint32?.map Reg.mk

/-- A block number as JSON. -/
def BlockId.toJson (id : BlockId) : Json := .ofInt id.index.toNat

/-- A block number from JSON. -/
def BlockId.ofJson? (j : Json) : Option BlockId := j.uint32?.map BlockId.mk

/-- Something that may be missing as JSON. -/
def Json.ofOption (toJson : α → Json) : Option α → Json
  | some a => toJson a
  | none => .null

/-- A list as JSON. -/
def Json.ofList (toJson : α → Json) (xs : List α) : Json := .array (xs.map toJson)

/-- A choice as JSON. -/
def Json.ofVariant (name : String) (value : Json) : Json := .ofMembers [(name, value)]

namespace Instruction

/-- An instruction as JSON. -/
def toJson : Instruction → Json
  | const dst ty value =>
    .ofVariant "Const" (.array [dst.toJson, ty.toJson, .ofInt value.toInt])
  | alloca dst ty count =>
    .ofVariant "Alloca" (.array [dst.toJson, ty.toJson, .ofInt count.toNat])
  | load dst ty ptr => .ofVariant "Load" (.array [dst.toJson, ty.toJson, ptr.toJson])
  | store ty value ptr => .ofVariant "Store" (.array [ty.toJson, value.toJson, ptr.toJson])
  | gep dst ty base index =>
    .ofVariant "Gep" (.array [dst.toJson, ty.toJson, base.toJson, index.toJson])
  | add dst ty lhs rhs =>
    .ofVariant "Add" (.array [dst.toJson, ty.toJson, lhs.toJson, rhs.toJson])
  | sub dst ty lhs rhs =>
    .ofVariant "Sub" (.array [dst.toJson, ty.toJson, lhs.toJson, rhs.toJson])
  | icmpNe dst ty lhs rhs =>
    .ofVariant "ICmpNe" (.array [dst.toJson, ty.toJson, lhs.toJson, rhs.toJson])
  | call dst symbol args =>
    .ofVariant "Call"
      (.array [.ofOption Reg.toJson dst, .ofString symbol, .ofList Reg.toJson args])

/-- The parts of an instruction with a name. -/
def ofParts? (name : String) (parts : List Json) : Option Instruction :=
  match name, parts with
  | "Const", [dst, ty, value] =>
    return .const (← Reg.ofJson? dst) (← Ty.ofJson? ty) (← value.int64?)
  | "Alloca", [dst, ty, count] =>
    return .alloca (← Reg.ofJson? dst) (← Ty.ofJson? ty) (← count.uint64?)
  | "Load", [dst, ty, ptr] =>
    return .load (← Reg.ofJson? dst) (← Ty.ofJson? ty) (← Reg.ofJson? ptr)
  | "Store", [ty, value, ptr] =>
    return .store (← Ty.ofJson? ty) (← Reg.ofJson? value) (← Reg.ofJson? ptr)
  | "Gep", [dst, ty, base, index] =>
    return .gep (← Reg.ofJson? dst) (← Ty.ofJson? ty) (← Reg.ofJson? base) (← Reg.ofJson? index)
  | "Add", [dst, ty, lhs, rhs] =>
    return .add (← Reg.ofJson? dst) (← Ty.ofJson? ty) (← Reg.ofJson? lhs) (← Reg.ofJson? rhs)
  | "Sub", [dst, ty, lhs, rhs] =>
    return .sub (← Reg.ofJson? dst) (← Ty.ofJson? ty) (← Reg.ofJson? lhs) (← Reg.ofJson? rhs)
  | "ICmpNe", [dst, ty, lhs, rhs] =>
    return .icmpNe (← Reg.ofJson? dst) (← Ty.ofJson? ty) (← Reg.ofJson? lhs) (← Reg.ofJson? rhs)
  | "Call", [dst, symbol, args] =>
    return .call (← dst.orNull? Reg.ofJson?) (← symbol.text?) (← args.list? Reg.ofJson?)
  | _, _ => none

/-- An instruction from JSON. -/
def ofJson? (j : Json) : Option Instruction :=
  match j.variant? with
  | some (name, some (.array parts)) => ofParts? name parts
  | _ => none

end Instruction

namespace Terminator

/-- A terminator as JSON. -/
def toJson : Terminator → Json
  | br target => .ofVariant "Br" target.toJson
  | condBr cond thenBlock elseBlock =>
    .ofVariant "CondBr" (.ofMembers [("cond", cond.toJson), ("then_block", thenBlock.toJson),
      ("else_block", elseBlock.toJson)])
  | ret value => .ofVariant "Ret" (.ofOption Reg.toJson value)

/-- A terminator from JSON. -/
def ofJson? (j : Json) : Option Terminator := do
  match ← j.variant? with
  | ("Br", some target) => return .br (← BlockId.ofJson? target)
  | ("CondBr", some parts) =>
    match ← parts.record? ["cond", "then_block", "else_block"] fun _ => none with
    | [cond, thenBlock, elseBlock] =>
      return .condBr (← Reg.ofJson? cond) (← BlockId.ofJson? thenBlock)
        (← BlockId.ofJson? elseBlock)
    | _ => none
  | ("Ret", some value) => return .ret (← value.orNull? Reg.ofJson?)
  | _ => none

end Terminator

namespace Block

/-- A block as JSON. -/
def toJson (b : Block) : Json :=
  .ofMembers [("id", b.id.toJson), ("label", .ofString b.label),
    ("instructions", .ofList Instruction.toJson b.instructions.toList),
    ("terminator", .ofOption Terminator.toJson b.terminator)]

/-- Of the fields of a block, an object may leave out the terminator. -/
def absentField : String → Option Json
  | "terminator" => some .null
  | _ => none

/-- A block from JSON. -/
def ofJson? (j : Json) : Option Block := do
  match ← j.record? ["id", "label", "instructions", "terminator"] absentField with
  | [id, label, instructions, terminator] =>
    return ⟨← BlockId.ofJson? id, ← label.text?,
      (← instructions.list? Instruction.ofJson?).toArray,
      ← terminator.orNull? Terminator.ofJson?⟩
  | _ => none

end Block

namespace Declaration

/-- A declaration as JSON. -/
def toJson (d : Declaration) : Json :=
  .ofMembers [("name", .ofString d.name), ("params", .ofList Ty.toJson d.params),
    ("ret", d.ret.toJson)]

/-- A declaration from JSON. -/
def ofJson? (j : Json) : Option Declaration := do
  match ← j.record? ["name", "params", "ret"] fun _ => none with
  | [name, params, ret] =>
    return ⟨← name.text?, ← params.list? Ty.ofJson?, ← Ty.ofJson? ret⟩
  | _ => none

end Declaration

namespace Function

/-- A function as JSON. -/
def toJson (f : Function) : Json :=
  .ofMembers [("name", .ofString f.name), ("ret", f.ret.toJson),
    ("blocks", .ofList Block.toJson f.blocks.toList), ("entry", f.entry.toJson)]

/-- A function from JSON. -/
def ofJson? (j : Json) : Option Function := do
  match ← j.record? ["name", "ret", "blocks", "entry"] fun _ => none with
  | [name, ret, blocks, entry] =>
    return ⟨← name.text?, ← Ty.ofJson? ret, (← blocks.list? Block.ofJson?).toArray,
      ← BlockId.ofJson? entry⟩
  | _ => none

end Function

namespace Module

/-- A module as JSON. -/
def toJson (m : Module) : Json :=
  .ofMembers [("name", .ofString m.name),
    ("externs", .ofList Declaration.toJson m.declarations),
    ("functions", .ofList Function.toJson m.functions)]

/-- A module from JSON. -/
def ofJson? (j : Json) : Option Module := do
  match ← j.record? ["name", "externs", "functions"] fun _ => none with
  | [name, declarations, functions] =>
    return ⟨← name.text?, ← declarations.list? Declaration.ofJson?,
      ← functions.list? Function.ofJson?⟩
  | _ => none

/-- A module as a JSON text. -/
def jsonText (m : Module) : String := m.toJson.render .pretty

/-- A module from a JSON text. -/
def parse (text : String) : Except Error Module := Json.decode "a module" ofJson? text

end Module

end TapeFlow
