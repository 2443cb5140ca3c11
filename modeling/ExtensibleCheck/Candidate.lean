import ExtensibleCheck.Syntax.Kind
import ExtensibleCheck.Syntax.Type

/-! Methods that may be selected for a call. They come from a signature that the compiler resolved,
or an extension makes them up. -/

namespace ExtensibleCheck

/-- The class or interface that a method belongs to. -/
structure Owner (τ : Type) where
  name : String
  type : Option τ := none
  deriving DecidableEq

/-- The owner of methods that belong to no class in particular. -/
def Owner.object {τ : Type} : Owner τ := ⟨"Object", none⟩

structure DeclaredName where
  kind : Kind
  text : String
  deriving DecidableEq

/-- The node that a declaration stands in. -/
structure DeclarationParent (τ : Type) where
  kind : Kind
  name : Option String
  type : τ
  deriving DecidableEq

/-- The declaration behind a resolved signature. -/
structure Declaration (τ : Type) where
  kind : Kind
  name : Option DeclaredName
  parent : DeclarationParent τ
  deriving DecidableEq

namespace Declaration

variable {τ : Type}

/-- The name by which a declared method is called. A name that is computed or a pattern counts as
none. -/
def methodName (d : Declaration τ) : String :=
  let written := d.name.filter fun name =>
    name.kind ∈ [.identifier, .privateIdentifier, .stringLiteral, .numericLiteral]
  match written, d.kind with
  | some name, _ => name.text
  | none, .constructorDeclaration | none, .constructSignature => "constructor"
  | none, _ => "<anonymous>"

/-- The class or interface around the declaration, if that is what it stands in. -/
def owner? (d : Declaration τ) : Option (Owner τ) :=
  if d.parent.kind.isClassLike || d.parent.kind = .interfaceDeclaration then
    some ⟨d.parent.name.getD "<anonymous>", some d.parent.type⟩
  else none

end Declaration

/-- A signature that the compiler resolved for a call. -/
structure Signature (τ : Type) where
  parameters : List (String × τ)
  returns : τ
  declaration : Option (Declaration τ)
  deriving DecidableEq

structure Candidate (τ : Type) where
  name : String
  parameters : List (String × Option τ) := []
  returns : Option τ := none
  owner : Option (Owner τ) := none
  declaration : Option (Declaration τ) := none
  /-- Whether an extension made the method up. -/
  synthetic : Bool := true
  deriving DecidableEq

namespace Candidate

variable {τ : Type}

def ofSignature (s : Signature τ) (d : Declaration τ) : Candidate τ where
  name := d.methodName
  parameters := s.parameters.map fun (name, type) => (name, some type)
  returns := some s.returns
  owner := d.owner?
  declaration := some d
  synthetic := false

/-- The candidate with `Object` for its owner if it has none. -/
def owned (c : Candidate τ) : Candidate τ := { c with owner := some (c.owner.getD .object) }

/-- The owner and the name: `Owner#name`, with nothing before the mark where there is no owner. -/
def label (c : Candidate τ) : String := (c.owner.map (·.name)).getD "" ++ "#" ++ c.name

/-- The candidate as messages show it: `Owner#name(type, ...)`. -/
def describe (showType : τ → String) (c : Candidate τ) : String :=
  let types := c.parameters.map fun (_, type) => (type.map showType).getD "unknown"
  (c.owner.map (·.name)).getD "Object" ++ "#" ++ c.name ++ "(" ++ ", ".intercalate types ++ ")"

end Candidate

end ExtensibleCheck
