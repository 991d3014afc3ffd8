/-
# Syntax trees

The tree of a line has a node for each construct, with the byte column where
it starts. A cursor in an editor is taken to the innermost node that starts
at or before it, later siblings first.

Key definitions: `Node`, `Node.preorder`, `Node.find`, `Node.under`.
-/

namespace Asm6502

/-- What a node of a tree stands for. -/
inductive NodeKind
  | line
  | command
  | function
  | expression
  | declaration
  | binaryOp
  | assembly
  | value
  | macroCall
  | symbol
deriving DecidableEq, Repr, Inhabited

/-- A construct at a byte column of its line, with the constructs inside it. -/
inductive Node
  | mk (kind : NodeKind) (text : String) (column : Nat) (children : List Node)
deriving Repr, Inhabited

namespace Node

/-- What the node stands for. -/
def kind : Node → NodeKind
  | mk kind _ _ _ => kind

/-- The text shown for the node. -/
def text : Node → String
  | mk _ text _ _ => text

/-- The byte column where the node starts. -/
def column : Node → Nat
  | mk _ _ column _ => column

/-- The nodes right inside the node. -/
def children : Node → List Node
  | mk _ _ _ children => children

/-- A node with nothing inside it. -/
def leaf (kind : NodeKind) (text : String) (column : Nat) : Node := mk kind text column []

mutual

/-- The node and all nodes inside it, parents before children. -/
def preorder : Node → List Node
  | mk kind text column children => mk kind text column children :: preorderAll children

/-- The trees of a list, one after the other, parents before children. -/
def preorderAll : List Node → List Node
  | [] => []
  | node :: nodes => node.preorder ++ preorderAll nodes

end

/-- The nodes of one kind, in preorder. -/
def find (kind : NodeKind) (node : Node) : List Node :=
  node.preorder.filter fun n => n.kind == kind

mutual

/-- The innermost node that starts at or before a column, later siblings first.
The line itself holds every column. -/
def under (column : Nat) : Node → Option Node
  | mk kind text start children =>
    if start > column && kind != .line then none
    else (underLast column children).or (some (mk kind text start children))

/-- The innermost node at or before a column in the last tree of a list that has
one. -/
def underLast (column : Nat) : List Node → Option Node
  | [] => none
  | node :: nodes => (underLast column nodes).or (under column node)

end

end Node

end Asm6502
