import ExtensibleCheck.Session.Basic

/-! The walk through a source file. What the compiler could not resolve or did not accept is offered
to the extensions first; what none of them takes care of is reported. Classes, methods and calls are
announced before they are entered, so that an extension can take them over, and again when they are
left. -/

namespace ExtensibleCheck

/-- The number under which the compiler reports that a type is not assignable to another. -/
def notAssignable : Int := 2322

/-- Where in the file the compiler found types that do not fit. -/
def SourceFile.incompatibilities (file : SourceFile) : List Int :=
  (file.reports.filter fun r => r.code = notAssignable && r.file = some file.number).filterMap
    (·.start)

/-- The ways in which the walk treats nodes. -/
inductive Treatment where
  | skipped
  | classBase
  | classLike
  | methodLike
  | closure
  | call
  | propertyAccess
  | elementAccess
  | shorthand
  | identifier
  | declaration
  | binary
  | return
  /-- Only the children are visited. -/
  | plain
  deriving DecidableEq

/-- How nodes of a kind are treated. Types, and what only makes names known, hold no values. -/
def Kind.treatment : Kind → Treatment
  | typeForm _ | expressionWithTypeArguments | importDeclaration | exportDeclaration
  | interfaceDeclaration | typeAliasDeclaration => .skipped
  | classDeclaration | classExpression => .classLike
  | methodDeclaration | constructorDeclaration | functionDeclaration | getAccessor
  | setAccessor => .methodLike
  | arrowFunction | functionExpression => .closure
  | callExpression | newExpression => .call
  | propertyAccess => .propertyAccess
  | elementAccess => .elementAccess
  | shorthandProperty => .shorthand
  | identifier => .identifier
  | variableDeclaration | propertyDeclaration | parameter => .declaration
  | binaryExpression => .binary
  | returnStatement => .return
  | _ => .plain

namespace Kind

theorem treatment_eq_classLike_iff (k : Kind) : k.treatment = .classLike ↔ k.isClassLike := by
  cases k <;> simp [treatment, isClassLike]

theorem treatment_eq_methodLike_iff (k : Kind) : k.treatment = .methodLike ↔ k.isMethodLike := by
  cases k <;> simp [treatment, isMethodLike]

theorem treatment_eq_closure_iff (k : Kind) : k.treatment = .closure ↔ k.isClosure := by
  cases k <;> simp [treatment, isClosure]

/-- Every type node is skipped, wherever the walk meets it by its kind alone. -/
theorem treatment_of_isTypeNode {k : Kind} (h : k.isTypeNode) : k.treatment = .skipped := by
  cases k <;> simp_all [treatment, isTypeNode]

end Kind

/-- How a node is treated where it stands: the base of a class is entered, although type nodes of
its kind are skipped. -/
def Occurrence.treatment (o : Occurrence) : Treatment :=
  if o.isClassBase then .classBase else o.kind.treatment

/-- What is needed to visit the nodes of one file. -/
structure Visitor (ι μ : Type) where
  checker : Checker ι μ
  file : SourceFile
  /-- The positions of the types that do not fit. -/
  incompatible : List Int

namespace Visitor

open Session

variable {ι μ : Type} [DecidableEq ι] (v : Visitor ι μ)

/-- Offers a matter to the extensions, and reports it at `place` if none takes care of it. -/
def offer (question : Question Occurrence CheckedType) (code : Code) (message : String)
    (place : Occurrence) : Session ι μ Unit := do
  unless ← v.checker.raise (.ask question) do
    report code message place

/-- Announces a node, goes through it unless an extension takes it over, and takes leave of it. -/
def announced (before : Question Occurrence CheckedType) (after : Notice Occurrence CheckedType)
    (body : Session ι μ Unit) : Session ι μ Unit := do
  unless ← v.checker.raise (.ask before) do
    body
  v.checker.raise (.notify after)

/-- Goes through the body of a closure with the extensions that the closure brings along. They stop
being active however the body ends. -/
def enclosed (closure : Occurrence) (body : Session ι μ Unit) : Session ι μ Unit := do
  let extensions ← v.checker.localExtensionsFor closure
  if extensions.isEmpty then body
  else do
    pushLocal extensions
    Run.ensuring body popLocal

/-- A variable that has neither a symbol nor a stored type is unresolved. -/
def checkVariable (name : Occurrence) (hasSymbol : Bool) : Session ι μ Unit := do
  unless hasSymbol || (← hasStored name) do
    v.offer (.unresolvedVariable name) .unresolvedVariable
      ("Cannot find variable '" ++ name.text ++ "'") name

def checkIdentifier (o : Occurrence) : Session ι μ Unit :=
  if o.isValueReference then v.checkVariable o o.node.info.hasSymbol else pure ()

/-- A shorthand property reads the variable that it is named after. -/
def checkShorthand (o : Occurrence) : Session ι μ Unit :=
  match o.child? .name with
  | some name => v.checkVariable name o.node.info.hasValueSymbol
  | none => pure ()

def checkProperty (o : Occurrence) : Session ι μ Unit := do
  match o.child? .expression, o.child? .name with
  | some object, some name =>
    unless (← hasStored o) || name.node.info.hasSymbol do
      let receiver ← typeOf object
      unless receiver.isUnchecked do
        v.offer (.unresolvedProperty o) .unresolvedProperty
          ("No such property: " ++ name.text ++ " for type " ++ receiver.text) name
  | _, _ => return

/-- An access by a key that is written out is unresolved if the apparent type of its receiver has
neither such a property nor any index signature. -/
def checkAttribute (o : Occurrence) : Session ι μ Unit := do
  match o.child? .expression, o.child? .argumentExpression with
  | some object, some key =>
    if key.kind = .stringLiteral || key.kind = .plainTemplate then
      unless ← hasStored o do
        let receiver ← typeOf object
        unless receiver.isUnchecked || key.text ∈ receiver.properties
            || 0 < receiver.indexSignatures do
          v.offer (.unresolvedAttribute o) .unresolvedAttribute
            ("No such attribute: " ++ key.text ++ " for type " ++ receiver.text) o
  | _, _ => return

/-- Selects the method that the compiler resolved, where it has a proper declaration. -/
def selectResolved (call : Occurrence) : Session ι μ Unit := do
  match call.node.info.signature with
  | some signature =>
    match signature.declaration with
    | some declaration =>
      unless declaration.kind = .jsDocSignature do
        v.checker.select call (.ofSignature signature declaration)
    | none => return
  | none => return

/-- Selects the only candidate; reports that there is none, or no way to choose. -/
def choose (call name : Occurrence) (receiver : CheckedType) (argumentTypes : List CheckedType) :
    List (Candidate CheckedType) → Session ι μ Unit
  | [] =>
    report .missingMethod ("Cannot find matching method " ++ receiver.text ++ "#" ++ name.text
      ++ "(" ++ ", ".intercalate (argumentTypes.map (·.text)) ++ ")") name
  | [target] => v.checker.select call target
  | candidates =>
    report .ambiguousMethod ("Reference to method is ambiguous. Cannot choose between "
      ++ ", ".intercalate (candidates.map (·.describe (·.text)))) name

/-- Resolves the call of a member. A method that does not exist is offered to the extensions, and
several candidates are narrowed before one is selected. -/
def resolveMember (call callee : Occurrence) : Session ι μ Unit := do
  match callee.child? .expression, callee.child? .name with
  | some object, some name =>
    if name.node.info.hasSymbol then v.selectResolved call
    else
      let receiver ← typeOf object
      unless receiver.isUnchecked do
        let arguments := call.withRole .argument
        let argumentTypes ← arguments.mapM typeOf
        let found ← v.checker.raise
          (.contribute ⟨receiver, name.text, arguments, argumentTypes, call⟩)
        let chosen ← if 1 < found.length then v.checker.raise (.narrow found call) else pure found
        v.choose call name receiver argumentTypes chosen
  | _, _ => return

def resolveCall (call : Occurrence) : Session ι μ Unit :=
  match call.child? .expression with
  | some callee =>
    if call.kind = .callExpression && callee.kind = .propertyAccess then v.resolveMember call callee
    else v.selectResolved call
  | none => v.selectResolved call

/-- Offers an assignment whose types do not fit. -/
def checkAssigned (node : Occurrence) (target : CheckedType) (value : Occurrence) :
    Session ι μ Unit := do
  if node.node.reportsWithin v.incompatible then
    let assigned ← typeOf value
    v.offer (.incompatibleAssignment target assigned node) .incompatibleAssignment
      ("Cannot assign value of type " ++ assigned.text ++ " to variable of type " ++ target.text)
      node

/-- The type that a declaration is to have: the one written down, or else that of its name. -/
def declaredType (o : Occurrence) : CheckedType :=
  match o.child? .type, o.child? .name with
  | some type, _ => type.node.info.denotes
  | none, some name => name.node.info.type
  | none, none => .any

def checkDeclaration (o : Occurrence) : Session ι μ Unit :=
  match o.child? .initializer with
  | some value => v.checkAssigned o (declaredType o) value
  | none => pure ()

/-- What a binary expression stores, if it is an assignment: a compound one the result of the whole
operation, a plain one its right operand. -/
def assignedValue? (o : Occurrence) : Option Occurrence :=
  match (o.child? .operator).map Occurrence.kind with
  | some (.assignment operator) => if operator.isCompound then some o else o.child? .right
  | _ => none

def checkBinary (o : Occurrence) : Session ι μ Unit :=
  match assignedValue? o, o.child? .left with
  | some value, some left => v.checkAssigned o left.node.info.type value
  | _, _ => pure ()

/-- Offers a returned value whose type does not fit. -/
def checkReturned (site value : Occurrence) (function : Option Node) : Session ι μ Unit := do
  if site.node.reportsWithin v.incompatible then
    let inferred ← typeOf value
    let declared := match function.bind (·.child? .type) with
      | some type => type.info.denotes.text
      | none => "unknown"
    v.offer (.incompatibleReturn site inferred) .incompatibleReturn
      ("Cannot return value of type " ++ inferred.text ++ " on method returning type " ++ declared)
      site

def checkReturn (o : Occurrence) : Session ι μ Unit :=
  match o.child? .expression with
  | some value => v.checkReturned o value o.enclosingFunction?
  | none => pure ()

/-- An arrow function whose body is an expression returns it. -/
def checkArrowBody (o : Occurrence) : Session ι μ Unit :=
  match o.child? .body with
  | some body =>
    if o.kind = .arrowFunction && body.kind ≠ .block then v.checkReturned body body (some o.node)
    else pure ()
  | none => pure ()

mutual

/-- Visits a node below `above`. A property access that is the callee of a call is not a property
by itself: only its object is visited. -/
def visit (above : List Ancestor) (isCallee : Bool) : Node → Session ι μ Unit
  | .mk info children =>
    let o : Occurrence := ⟨v.file, .mk info children, above⟩
    match o.treatment with
    | .skipped => pure ()
    | .classBase => visitAmong o (· = .expression) false 0 children
    | .classLike =>
      v.announced (.beforeVisitClass o) (.afterVisitClass o)
        (visitAmong o (fun _ => true) false 0 children)
    | .methodLike =>
      if (o.child? .body).isSome then
        v.announced (.beforeVisitMethod o) (.afterVisitMethod o)
          (visitAmong o (fun _ => true) false 0 children)
      else pure ()
    | .closure =>
      v.enclosed o do
        visitAmong o (fun _ => true) false 0 children
        v.checkArrowBody o
    | .call =>
      v.announced (.beforeMethodCall o) (.afterMethodCall o) do
        visitAmong o (· = .expression) (o.kind = .callExpression) 0 children
        visitAmong o (· = .argument) false 0 children
        v.resolveCall o
    | .propertyAccess => do
      visitAmong o (· = .expression) false 0 children
      unless isCallee do v.checkProperty o
    | .elementAccess => do
      visitAmong o (· = .expression) false 0 children
      visitAmong o (· = .argumentExpression) false 0 children
      v.checkAttribute o
    | .shorthand => do
      v.checkShorthand o
      visitAmong o (· = .shorthandDefault) false 0 children
    | .identifier => v.checkIdentifier o
    | .declaration => do
      visitAmong o (fun _ => true) false 0 children
      v.checkDeclaration o
    | .binary => do
      visitAmong o (fun _ => true) false 0 children
      v.checkBinary o
    | .return => do
      visitAmong o (fun _ => true) false 0 children
      v.checkReturn o
    | .plain => visitAmong o (fun _ => true) false 0 children

/-- Visits the children of `parent`, from index `branch` on, that play one of the chosen roles. -/
def visitAmong (parent : Occurrence) (chosen : Role → Bool) (isCallee : Bool) :
    Nat → List Node → Session ι μ Unit
  | _, [] => pure ()
  | branch, child :: rest => do
    if chosen child.role then
      visit (⟨parent.node, branch⟩ :: parent.above) isCallee child
    visitAmong parent chosen isCallee (branch + 1) rest

end

end Visitor

namespace Checker

variable {ι μ : Type} [DecidableEq ι]

/-- Checks one source file. -/
def visitFile (c : Checker ι μ) (file : SourceFile) : Session ι μ Unit := do
  if c.verbose then Session.print ("Checking " ++ file.name)
  Visitor.visitAmong ⟨c, file, file.incompatibilities⟩ file.rootOccurrence (fun _ => true) false 0
    file.root.children

end Checker

end ExtensibleCheck
