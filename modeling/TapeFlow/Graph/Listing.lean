import TapeFlow.Graph.Module

/-!
# Listings

A module as text for a reader: one line for each declaration, instruction and
terminator, and a line with its label before each block.
-/

namespace TapeFlow

/-- The name of a register in a listing. -/
def Reg.text (r : Reg) : String := s!"r{r.index.toNat}"

/-- Names of registers as the arguments of a call. -/
def Reg.listText (rs : List Reg) : String := String.intercalate ", " (rs.map Reg.text)

/-- An instruction without its indentation. -/
def Instruction.text : Instruction → String
  | const dst ty value => s!"{dst.text} = {ty.name} {value.toInt}"
  | alloca dst ty count => s!"{dst.text} = alloca {ty.name} x {count.toNat}"
  | load dst ty ptr => s!"{dst.text} = load {ty.name}, [{ptr.text}]"
  | store ty value ptr => s!"store {ty.name} {value.text}, [{ptr.text}]"
  | gep dst ty base index => s!"{dst.text} = gep {ty.name}, {base.text}, {index.text}"
  | add dst ty lhs rhs => s!"{dst.text} = add {ty.name} {lhs.text}, {rhs.text}"
  | sub dst ty lhs rhs => s!"{dst.text} = sub {ty.name} {lhs.text}, {rhs.text}"
  | icmpNe dst ty lhs rhs => s!"{dst.text} = icmp ne {ty.name} {lhs.text}, {rhs.text}"
  | call (some dst) symbol args => s!"{dst.text} = call @{symbol}({Reg.listText args})"
  | call none symbol args => s!"call @{symbol}({Reg.listText args})"

namespace Function

/-- A block as a branch names it: by its label, or by its number if there is no
such block. -/
def targetText (f : Function) (id : BlockId) : String :=
  match f.block? id with
  | some b => b.label
  | none => s!"#{id.toNat}"

/-- A terminator without its indentation. -/
def terminatorText (f : Function) : Terminator → String
  | .br target => s!"br {f.targetText target}"
  | .condBr cond thenBlock elseBlock =>
    s!"condbr {cond.text}, {f.targetText thenBlock}, {f.targetText elseBlock}"
  | .ret (some value) => s!"ret {value.text}"
  | .ret none => "ret"

/-- The lines of a block. -/
def blockLines (f : Function) (b : Block) : List String :=
  let last :=
    match b.terminator with
    | some t => f.terminatorText t
    | none => "; <unterminated>"
  s!"{b.label}:" :: (b.instructions.toList.map fun i => s!"  {i.text}") ++ [s!"  {last}"]

/-- The lines of a function. -/
def lines (f : Function) : List String :=
  s!"define {f.ret.name} @{f.name}() \x7b" :: f.blocks.toList.flatMap f.blockLines ++ ["\x7d"]

end Function

/-- Lines as a text; each ends with a newline. -/
def unlines (lines : List String) : String := String.join (lines.map fun line => line ++ "\n")

/-- A function as text. -/
def Function.text (f : Function) : String := unlines f.lines

/-- A declaration without its newline. -/
def Declaration.text (d : Declaration) : String :=
  let params := String.intercalate ", " (d.params.map Ty.name)
  s!"declare {d.ret.name} @{d.name}({params})"

namespace Module

/-- The lines of a module: a blank line stands before each function. -/
def lines (m : Module) : List String :=
  s!"; module {m.name}" :: m.declarations.map Declaration.text ++
    m.functions.flatMap fun f => "" :: f.lines

/-- A module as text. -/
def text (m : Module) : String := unlines m.lines

/-- The rule that frames a dump. -/
def rule : String := String.ofList (List.replicate 59 '═')

/-- A module as text in a frame. -/
def dump (m : Module) : String :=
  unlines ([rule, "                    IR DUMP", rule] ++ m.lines ++ [rule, ""])

end Module

end TapeFlow
