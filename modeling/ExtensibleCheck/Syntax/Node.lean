import ExtensibleCheck.Candidate

/-! Syntax trees, and for every node what the compiler knows about it. -/

namespace ExtensibleCheck

/-- The part that a node plays in its parent. Several children of one node may have the role of an
argument; the other roles of this type occur once. -/
inductive Role where
  | name
  | propertyName
  | label
  | expression
  | argument
  | argumentExpression
  | initializer
  | shorthandDefault
  | type
  | left
  | right
  | operator
  | body
  | other (name : String)
  deriving DecidableEq

/-- The role that goes by a name. Names of lists end in a star. -/
def Role.ofName : String → Role
  | "name" => name
  | "propertyName" => propertyName
  | "label" => label
  | "expression" => expression
  | "arguments*" => argument
  | "argumentExpression" => argumentExpression
  | "initializer" => initializer
  | "objectAssignmentInitializer" => shorthandDefault
  | "type" => type
  | "left" => left
  | "right" => right
  | "operatorToken" => operator
  | "body" => body
  | role => other role

/-- What a heritage clause introduces. -/
inductive Heritage where
  | extends
  | implements
  deriving DecidableEq

/-- What a keyword at the head of a heritage clause introduces. -/
def Heritage.ofName? : String → Option Heritage
  | "ExtendsKeyword" => some .extends
  | "ImplementsKeyword" => some .implements
  | _ => none

/-- A node without its children. Positions count UTF-16 code units. A node that is said to end before
it begins covers no position. -/
structure NodeInfo where
  role : Role
  kind : Kind
  start : Nat
  stop : Int
  text : String := ""
  heritage : Option Heritage := none
  /-- Whether the compiler has a symbol for the node. -/
  hasSymbol : Bool := true
  /-- Whether it has one for the value that a shorthand property stands for. -/
  hasValueSymbol : Bool := true
  /-- The type of the node as an expression or declaration. -/
  type : CheckedType := .any
  /-- The type that the node denotes if it is a type node. -/
  denotes : CheckedType := .any
  /-- The signature resolved for the node if it is a call. -/
  signature : Option (Signature CheckedType) := none

/-- A node with its children from left to right. -/
inductive Node where
  | mk (info : NodeInfo) (children : List Node)

namespace Node

def info : Node → NodeInfo
  | mk info _ => info

def children : Node → List Node
  | mk _ children => children

def role (n : Node) : Role := n.info.role

def kind (n : Node) : Kind := n.info.kind

def start (n : Node) : Nat := n.info.start

def stop (n : Node) : Int := n.info.stop

def text (n : Node) : String := n.info.text

def width (n : Node) : Int := n.stop - n.start

/-- The child that plays a role. -/
def child? (n : Node) (role : Role) : Option Node := n.children.find? (·.role = role)

/-- Whether a position falls on the node. -/
def covers (n : Node) (position : Int) : Bool := n.start ≤ position && position < n.stop

mutual

/-- The outermost functions and classes from `n` on downward. -/
def owners : Node → List Node
  | .mk info children => if info.kind.isOwner then [.mk info children] else ownersAmong children

/-- The outermost functions and classes in a list of trees. -/
def ownersAmong : List Node → List Node
  | [] => []
  | n :: rest => n.owners ++ ownersAmong rest

end

/-- The outermost functions and classes strictly inside a node. -/
def nestedOwners (n : Node) : List Node := ownersAmong n.children

/-- Whether one of the positions falls on the node but on no function or class nested in it, which
would own it. -/
def reportsWithin (n : Node) (positions : List Int) : Bool :=
  positions.any fun position =>
    n.covers position && !n.nestedOwners.any (·.covers position)

end Node

end ExtensibleCheck
