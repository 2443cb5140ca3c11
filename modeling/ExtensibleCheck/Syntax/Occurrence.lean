import ExtensibleCheck.Diagnostic.Basic
import ExtensibleCheck.Syntax.Node

/-! Nodes where they stand. An occurrence is a node together with its file and the nodes above it;
its address tells it apart from every other node, also from one that looks the same. -/

namespace ExtensibleCheck

/-- A mistake that the compiler found in the types of a file. -/
structure TypeReport where
  code : Int
  /-- The file that the report is about, by number. -/
  file : Option Nat
  start : Option Int

/-- A source file with its tree and what the compiler reports about it. -/
structure SourceFile where
  number : Nat
  name : String
  text : String
  root : Node
  reports : List TypeReport := []

/-- The address of a node: its file, and which child to take at every step down to it, the last step
first. -/
structure NodeId where
  file : Nat
  path : List Nat
  deriving DecidableEq

/-- A node above another, and which of its children leads there. -/
structure Ancestor where
  node : Node
  branch : Nat

structure Occurrence where
  file : SourceFile
  node : Node
  /-- The nodes above, the parent first. -/
  above : List Ancestor

namespace Occurrence

def id (o : Occurrence) : NodeId := ⟨o.file.number, o.above.map (·.branch)⟩

def kind (o : Occurrence) : Kind := o.node.kind

def text (o : Occurrence) : String := o.node.text

def parent? (o : Occurrence) : Option Occurrence :=
  match o.above with
  | [] => none
  | a :: above => some ⟨o.file, a.node, above⟩

/-- The occurrence of a child, given with its index. -/
def below (o : Occurrence) (child : Node) (branch : Nat) : Occurrence :=
  ⟨o.file, child, ⟨o.node, branch⟩ :: o.above⟩

def children (o : Occurrence) : List Occurrence :=
  o.node.children.zipIdx.map fun (child, branch) => o.below child branch

def withRole (o : Occurrence) (role : Role) : List Occurrence :=
  o.children.filter (·.node.role = role)

def child? (o : Occurrence) (role : Role) : Option Occurrence :=
  o.children.find? (·.node.role = role)

/-- The node `n` levels further up, or the root if there are not so many. -/
def up (o : Occurrence) : Nat → Occurrence
  | 0 => o
  | n + 1 => match o.parent? with
    | some p => p.up n
    | none => o

/-- Where the node begins in its file, and how long it is. -/
def location (o : Occurrence) : Location :=
  .ofSpan o.file.name o.file.text o.node.start o.node.width

/-- Whether an identifier reads a value, rather than naming a declaration, a member, a property key
or a label. -/
def isValueReference (o : Occurrence) : Bool :=
  o.node.role ∉ [.name, .propertyName, .label] &&
    !(o.above.head?.any fun parent => parent.node.kind = .qualifiedName)

/-- Whether the node names the base of a class, which is a value although the node is written as a
type. -/
def isClassBase (o : Occurrence) : Bool :=
  o.kind = .expressionWithTypeArguments &&
    match o.above with
    | clause :: owner :: _ =>
      clause.node.kind = .heritageClause && clause.node.info.heritage = some .extends &&
        owner.node.kind.isClassLike
    | _ => false

/-- The innermost function around the node. -/
def enclosingFunction? (o : Occurrence) : Option Node :=
  (o.above.find? (·.node.kind.isFunctionLike)).map (·.node)

mutual

/-- The occurrences of `n` and of all nodes below it, each before its children. -/
def preorderOf (file : SourceFile) (above : List Ancestor) : Node → List Occurrence
  | .mk info children =>
    ⟨file, .mk info children, above⟩ :: preorderAmong file (.mk info children) above 0 children

def preorderAmong (file : SourceFile) (parent : Node) (above : List Ancestor) :
    Nat → List Node → List Occurrence
  | _, [] => []
  | branch, n :: rest =>
    preorderOf file (⟨parent, branch⟩ :: above) n
      ++ preorderAmong file parent above (branch + 1) rest

end

end Occurrence

namespace SourceFile

def rootOccurrence (file : SourceFile) : Occurrence := ⟨file, file.root, []⟩

/-- All nodes of the file, each before its children. -/
def occurrences (file : SourceFile) : List Occurrence := Occurrence.preorderOf file [] file.root

/-- The node that comes `n`-th when each is counted before its children, the root being number 0. -/
def occurrence? (file : SourceFile) (n : Nat) : Option Occurrence := file.occurrences[n]?

end SourceFile

/-- The source files that are to be checked, in order. Files that they merely import are not among
them. -/
structure Program where
  files : List SourceFile

namespace Program

def file? (p : Program) (number : Nat) : Option SourceFile :=
  p.files.find? (·.number = number)

def occurrence? (p : Program) (id : NodeId) : Option Occurrence := do
  let file ← p.file? id.file
  file.occurrences.find? (·.id = id)

end Program

end ExtensibleCheck
