import OwnScript.Code.Chunk
import OwnScript.Text.Column

/-!
Listings of code. Each instruction takes one line: its offset, the source line or a bar if the
line is that of the byte before, the operation and its operands, with constants, texts, jump
targets and functions spelled out where their tables hold them. Any bytes can be listed.
-/

namespace OwnScript.Chunk

/-- An index into a table with the quoted entry that it leads to, if there is one. -/
def listEntry (index : Nat) (entry : Option String) : String :=
  " " ++ Text.alignRight 4 ' ' (toString index) ++ " '" ++ entry.getD "" ++ "'"

/-- A jump from an offset to a target. -/
def listJump (offset target : Nat) : String :=
  " " ++ Text.alignRight 4 ' ' (toString offset) ++ s!" -> {target}"

/-- The operands of an instruction. A backward jump beyond the start of the code shows its
target as a 64-bit word. -/
def listOperands (chunk : Chunk) (op : Opcode) (offset : Nat) : String :=
  let operand (i : Nat) : Nat := (chunk.readShort? (offset + 1 + 2 * i)).getD 0
  match op with
  | .constant => listEntry (operand 0) (chunk.constants[operand 0]?.map Constant.shown)
  | .string | .getField | .setField => listEntry (operand 0) chunk.strings[operand 0]?
  | .jump | .jumpIfFalse | .jumpIfTrue => listJump offset (offset + 3 + operand 0)
  | .loopBack => listJump offset ((offset + 3 + UInt64.size - operand 0) % UInt64.size)
  | .closure =>
    let function := match chunk.functions[operand 0]? with
      | some (some prototype) => s!" <{prototype.name}>"
      | _ => ""
    " " ++ Text.alignRight 4 ' ' (toString (operand 0)) ++ function
  | _ => String.join ((List.range op.operandCount).map fun i => s!" {operand i}")

/-- The offset and the source line in front of an instruction. -/
def listPlace (chunk : Chunk) (offset : Nat) : String :=
  let line := (chunk.locationAt offset).line
  let sameLine := 0 < offset && line == (chunk.locationAt (offset - 1)).line
  let shown := if sameLine then "   | " else Text.alignRight 4 ' ' (toString line) ++ " "
  Text.alignRight 4 '0' (toString offset) ++ " " ++ shown

/-- The line of the instruction at an offset and the offset of the next one. A byte that is no
opcode takes a line of its own; an instruction that the code cuts off ends the listing. -/
def listInstruction (chunk : Chunk) (offset : Nat) : String × Nat :=
  let place := chunk.listPlace offset
  let byte := chunk.code[offset]?.getD 0
  match Opcode.ofByte? byte with
  | none => (s!"{place}Unknown opcode {byte.toNat}\n", offset + 1)
  | some op =>
    if offset + op.size > chunk.code.size then
      (s!"{place}{op.name} <truncated>\n", chunk.code.size)
    else
      (place ++ Text.alignLeft 16 op.name ++ chunk.listOperands op offset ++ "\n",
        offset + op.size)

/-- The lines of the instructions from an offset on, after the text so far. No instruction is
empty, so there are at most as many as there are bytes. -/
def listFrom (chunk : Chunk) : Nat → Nat → String → String
  | 0, _, text => text
  | bytes + 1, offset, text =>
    if offset < chunk.code.size then
      let (line, next) := chunk.listInstruction offset
      listFrom chunk bytes next (text ++ line)
    else text

/-- The heading of a chunk and its instructions. -/
def listCode (chunk : Chunk) (name : String) : String :=
  chunk.listFrom chunk.code.size 0 s!"== {name} ==\n"

mutual

/-- The listing of a chunk and of the functions in it, each after the one that contains it. -/
def listing (name : String) : Chunk → String
  | ⟨code, locations, constants, strings, matchers, clauses, shapes, functions⟩ =>
    listCode ⟨code, locations, constants, strings, matchers, clauses, shapes, functions⟩ name
      ++ listFunctions functions

/-- The listings of a table of functions. -/
def listFunctions : Array (Option Prototype) → String
  | ⟨functions⟩ => listEach functions ""

/-- The listings of functions one after the other, after the text so far. -/
def listEach : List (Option Prototype) → String → String
  | [], text => text
  | some ⟨name, _, _, some chunk, _⟩ :: rest, text => listEach rest (text ++ listing name chunk)
  | _ :: rest, text => listEach rest text

end

end OwnScript.Chunk
