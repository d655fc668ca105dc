-- The connectors at the start of a row: per ancestor level, `  |` when that ancestor has a later
-- sibling to come and three blanks when not, then two blanks. The flags form a stack that grows
-- on the way down; popping an empty stack is an error.
import YangDiagram.Json.Value

namespace YangDiagram.Diagram

open YangDiagram.Json

/-- The connector text of a row under ancestors with the given flags, outermost first. -/
def connectorText (flags : List Bool) : Text :=
  Text.join (flags.map fun more => if more then Text.ofString "  |" else Text.ofString "   ") ++ "  "

/-- A stack of connector flags as pushed, outermost first. -/
structure Connectors where
  flags : List Value := []
  deriving Inhabited

namespace Connectors

def push (c : Connectors) (more : Value) : Connectors := ⟨c.flags ++ [more]⟩

/-- One level back; none on an empty stack. -/
def pop? (c : Connectors) : Option Connectors :=
  if c.flags.isEmpty then none else some ⟨c.flags.dropLast⟩

def text (c : Connectors) : Text := connectorText (c.flags.map Value.truthy)

def emptyMessage : Text := "ConnectorTracker.pop() on an empty stack"

/-- A change to a stack, or a look at it. -/
inductive Step where
  | push (more : Value)
  | pop
  | look

/-- The stack after each step of a sequence, or the message of a step that failed (which leaves
the stack as it was). -/
def replay (c : Connectors) : List Step → List (Except Text Connectors)
  | [] => []
  | .push more :: rest => let c' := c.push more; .ok c' :: replay c' rest
  | .pop :: rest =>
    match c.pop? with
    | some c' => .ok c' :: replay c' rest
    | none => .error emptyMessage :: replay c rest
  | .look :: rest => .ok c :: replay c rest

end Connectors

end YangDiagram.Diagram
