import ExtensibleCheck.Proofs.Session.Unfolding
import ExtensibleCheck.Proofs.Walk.Dealings

/-! The trail that the walk through a file leaves in the journal, as a language over the tree. Going
through a node leaves an opening, the trails of those children that the walk goes on to, and a closing;
a variable is only checked. A run that is aborted leaves the beginning of a trail. -/

namespace ExtensibleCheck

namespace Occurrence

/-- Whether a child is the name of its parent. -/
def isNamedBy (o c : Occurrence) : Bool := (o.child? .name).any (·.id = c.id)

/-- Whether the node names a shorthand property, and so the variable that the property stands for. -/
def isShorthandName (n : Occurrence) : Bool :=
  n.ancestors.head?.any fun p => p.kind = .shorthandProperty && p.isNamedBy n

/-- Whether the node is checked as a variable, and never gone through. -/
def isVariable (n : Occurrence) : Bool := n.isShorthandName || n.kind = .identifier

/-- Whether the node stands for the value of a variable. -/
def readsVariable (n : Occurrence) : Bool := n.isShorthandName || n.isValueReference

/-- Whether the compiler has a symbol for the variable. For the name of a shorthand property it is that
of the value. -/
def hasVariableSymbol (n : Occurrence) : Bool :=
  if n.isShorthandName then n.ancestors.head?.any (·.node.info.hasValueSymbol) else n.node.info.hasSymbol

/-- The children that the walk goes on to from a node, in its order. -/
def entered (o : Occurrence) : List Occurrence :=
  match o.treatment with
  | .skipped | .identifier => []
  | .classBase | .propertyAccess => o.withRole .expression
  | .methodLike => if (o.child? .body).isSome then o.children else []
  | .call => o.withRole .expression ++ o.withRole .argument
  | .elementAccess => o.withRole .expression ++ o.withRole .argumentExpression
  | .shorthand => (o.child? .name).toList ++ o.withRole .shorthandDefault
  | _ => o.children

/-- The object and the name of the member that a call calls. -/
def member? (call : Occurrence) : Option (Occurrence × Occurrence) := do
  let callee ← call.child? .expression
  if call.kind = .callExpression ∧ callee.kind = .propertyAccess then
    return (← callee.child? .expression, ← callee.child? .name)
  else none

/-- What is checked for types that do not fit once the walk is through with a node: a declaration with a
value, an assignment or a return of a value as a whole, and the expression that an arrow returns. -/
def checkedSite? (o : Occurrence) : Option Occurrence :=
  match o.treatment with
  | .declaration => (o.child? .initializer).map fun _ => o
  | .binary => (Visitor.assignedValue? o).bind fun _ => (o.child? .left).map fun _ => o
  | .return => (o.child? .expression).map fun _ => o
  | .closure => (o.child? .body).filter fun body => o.kind = .arrowFunction && body.kind ≠ .block
  | _ => none

/-- Whether the compiler found types that do not fit within the node, and not within a function or class
below it. -/
def hasReport (n : Occurrence) : Bool := n.node.reportsWithin n.file.incompatibilities

end Occurrence

/-- What the walk goes into once it is through with a node: a property or an attribute that is accessed, a
value that is assigned, or one that is returned. -/
inductive Matter where
  | property (object name : Occurrence)
  | element (object key : Occurrence)
  | assigned (target : CheckedType) (value : Occurrence)
  | returned (site value : Occurrence) (declared : String)

namespace Matter

def isAccess : Matter → Bool
  | property _ _ | element _ _ => true
  | _ => false

/-- The node whose type decides the matter. -/
def subject : Matter → Occurrence
  | property object _ | element object _ => object
  | assigned _ value | returned _ value _ => value

/-- Whether there is anything to decide at the node: an attribute has to be written out, and a value has
to be one that the compiler found not to fit. -/
def arises (o : Occurrence) : Matter → Bool
  | property _ _ => true
  | element _ key => key.kind = .stringLiteral || key.kind = .plainTemplate
  | assigned _ _ => o.hasReport
  | returned site _ _ => site.hasReport

/-- Whether the compiler knows the property by its name. -/
def hasSymbol : Matter → Bool
  | property _ name => name.node.info.hasSymbol
  | _ => false

/-- Whether the matter is settled because the subject has the type. -/
def passes : Matter → CheckedType → Bool
  | property _ _, type => type.isUnchecked
  | element _ key, type =>
    type.isUnchecked || key.text ∈ type.properties || 0 < type.indexSignatures
  | _, _ => false

/-- What the extensions are asked, given the type of the subject. -/
def question (o : Occurrence) : Matter → CheckedType → Question Occurrence CheckedType
  | property _ _, _ => .unresolvedProperty o
  | element _ _, _ => .unresolvedAttribute o
  | assigned target _, type => .incompatibleAssignment target type o
  | returned site _ _, type => .incompatibleReturn site type

/-- What is reported if none of them takes care of it. -/
def message : Matter → CheckedType → String
  | property _ name, type => "No such property: " ++ name.text ++ " for type " ++ type.text
  | element _ key, type => "No such attribute: " ++ key.text ++ " for type " ++ type.text
  | assigned target _, type =>
    "Cannot assign value of type " ++ type.text ++ " to variable of type " ++ target.text
  | returned _ _ declared, type =>
    "Cannot return value of type " ++ type.text ++ " on method returning type " ++ declared

/-- What holds of a matter that is put to the extensions, given the type of its subject: it arises at the
node, and neither its name nor the type settles it. -/
structure Stands (o : Occurrence) (matter : Matter) (type : CheckedType) : Prop where
  arises : matter.arises o
  unknown : matter.hasSymbol = false
  unsettled : matter.passes type = false

/-- Whether anything is stored is asked for an access only. -/
def probing {ι : Type} (o : Occurrence) (matter : Matter) : List (Event ι) :=
  if matter.isAccess then [.probed o false] else []

end Matter

/-- How the type that a function is declared to return is written. -/
def declaredReturn (function : Option Node) : String :=
  match function.bind (·.child? .type) with
  | some type => type.info.denotes.text
  | none => "unknown"

/-- What there is to go into at a node, if anything. A property that is called is left to the call. -/
def Occurrence.matter? (o : Occurrence) : Option Matter :=
  match o.treatment with
  | .propertyAccess =>
    if o.isCallee then none
    else (o.child? .expression).bind fun object => (o.child? .name).map (.property object)
  | .elementAccess =>
    (o.child? .expression).bind fun object => (o.child? .argumentExpression).map (.element object)
  | .declaration => (o.child? .initializer).map (.assigned (Visitor.declaredType o))
  | .binary =>
    (Visitor.assignedValue? o).bind fun value =>
      (o.child? .left).map fun left => .assigned left.node.info.type value
  | .return =>
    (o.child? .expression).map fun value => .returned o value (declaredReturn o.enclosingFunction?)
  | .closure =>
    ((o.child? .body).filter fun body => o.kind = .arrowFunction && body.kind ≠ .block).map
      fun body => .returned body body (declaredReturn (some o.node))
  | _ => none

section

variable {ι : Type}

/-- A mistake is offered, and reported if it is left unhandled. -/
inductive Offered (question : Question Occurrence CheckedType) (code : Code) (message : String)
    (place : Occurrence) : List (Event ι) → Prop
  | handled {events} : Exchange (.ask question) true events →
      Offered question code message place events
  | unhandled {events} : Exchange (.ask question) false events →
      Offered question code message place
        (events ++ [.reported ⟨code, .error, message, some place.location⟩])

/-- What stands for a variable is offered if it has neither a symbol nor anything stored. -/
inductive VariableCheck (o : Occurrence) : List (Event ι) → Prop
  | unread : o.readsVariable = false → VariableCheck o []
  | known {found} : o.readsVariable → o.hasVariableSymbol || found → VariableCheck o [.probed o found]
  | unknown {events} : o.readsVariable → o.hasVariableSymbol = false →
      Offered (.unresolvedVariable o) .unresolvedVariable ("Cannot find variable '" ++ o.text ++ "'") o
        events →
      VariableCheck o (.probed o false :: events)

/-- The mistakes that are offered when the walk is through with a node. -/
inductive Mistaken (o : Occurrence) : Question Occurrence CheckedType → Prop
  | property : o.treatment = .propertyAccess → o.isCallee = false →
      Mistaken o (.unresolvedProperty o)
  | attribute : o.treatment = .elementAccess → Mistaken o (.unresolvedAttribute o)
  | assignment {target assigned} : o.treatment ∈ [.declaration, .binary] → o.checkedSite? = some o →
      o.hasReport → Mistaken o (.incompatibleAssignment target assigned o)
  | return {inferred} : o.treatment = .return → o.checkedSite? = some o → o.hasReport →
      Mistaken o (.incompatibleReturn o inferred)
  | arrowBody {body inferred} : o.kind = .arrowFunction → o.child? .body = some body →
      body.kind ≠ .block → body.hasReport → Mistaken o (.incompatibleReturn body inferred)

/-- How the walk goes into a matter. An access that somebody vouched for, or whose name the compiler
knows, is let pass; otherwise it depends on the type of the subject whether the matter is offered. -/
inductive Inquiry (o : Occurrence) (matter : Matter) : List (Event ι) → Prop
  | spared : matter.arises o = false → Inquiry o matter []
  | vouched {found} : matter.arises o → matter.isAccess → matter.hasSymbol || found →
      Inquiry o matter [.probed o found]
  | settled {type} : matter.arises o → matter.hasSymbol = false → matter.passes type →
      Inquiry o matter (matter.probing o ++ [.lookedUp matter.subject type])
  | offered {type code place events} : matter.Stands o type →
      (matter.question o type).mistake? = some (code, place) →
      Offered (matter.question o type) code (matter.message type) place events →
      Inquiry o matter (matter.probing o ++ .lookedUp matter.subject type :: events)

/-- What the walk remarks on a node once it is through with it. -/
inductive Remark (o : Occurrence) : List (Event ι) → Prop
  | nothing : o.matter? = none → Remark o []
  | inquiry {matter events} : o.matter? = some matter → Inquiry o matter events → Remark o events

/-- A method is selected for a call, and everybody is told. -/
inductive Selecting (call : Occurrence) (target : Candidate CheckedType) : List (Event ι) → Prop
  | mk {events} : Exchange (.notify (.methodSelection call target)) () events →
      Selecting call target (.selected call target :: events)

/-- Several candidates are offered for a choice, of fewer there is none to make. -/
inductive Narrowing (call : Occurrence) : (found chosen : List (Candidate CheckedType)) →
    List (Event ι) → Prop
  | several {found chosen events} : 1 < found.length →
      Exchange (.narrow found call) chosen events → Narrowing call found chosen events
  | few {found} : found.length ≤ 1 → Narrowing call found found []

/-- The one candidate that is left is selected. That there is none or more than one is reported. -/
inductive Choosing (call name : Occurrence) (receiver : CheckedType) (types : List CheckedType) :
    List (Candidate CheckedType) → List (Event ι) → Prop
  | none : Choosing call name receiver types [] [.reported ⟨.missingMethod, .error,
      "Cannot find matching method " ++ receiver.text ++ "#" ++ name.text ++ "("
        ++ ", ".intercalate (types.map (·.text)) ++ ")", some name.location⟩]
  | one {target events} : Selecting call target events →
      Choosing call name receiver types [target] events
  | many {candidates} : 1 < candidates.length →
      Choosing call name receiver types candidates [.reported ⟨.ambiguousMethod, .error,
        "Reference to method is ambiguous. Cannot choose between "
          ++ ", ".intercalate (candidates.map (·.describe (·.text))), some name.location⟩]

/-- How a call is resolved once the walk is through with its callee and its arguments. -/
inductive Resolution (call : Occurrence) : List (Event ι) → Prop
  /-- What the compiler makes of the call counts, unless it is of a member that it does not know. -/
  | compiled {events} : (∀ object name, call.member? = some (object, name) → name.node.info.hasSymbol) →
      (events = [] ∨ ∃ target, Selecting call target events) → Resolution call events
  | unchecked {object name receiver} : call.member? = some (object, name) →
      name.node.info.hasSymbol = false → receiver.isUnchecked →
      Resolution call [.lookedUp object receiver]
  | supplied {object name receiver types found chosen contributing narrowing choosing} :
      call.member? = some (object, name) → name.node.info.hasSymbol = false →
      receiver.isUnchecked = false → types.length = (call.withRole .argument).length →
      Exchange (.contribute ⟨receiver, name.text, call.withRole .argument, types, call⟩) found
        contributing →
      Narrowing call found chosen narrowing →
      Choosing call name receiver types chosen choosing →
      Resolution call (.lookedUp object receiver ::
        (List.zipWith .lookedUp (call.withRole .argument) types ++ contributing ++ narrowing ++ choosing))

/-- How a node is opened, and whether it is entered then. -/
inductive Opening (o : Occurrence) : Bool → List (Event ι) → Prop
  | plain : o.announcement? = none → o.kind.isClosure = false → Opening o true []
  | closure {during extensions} : o.kind.isClosure → (∀ e ∈ during, e.isDeed) →
      Opening o true (during ++ [.brought o extensions])
  | announced {before after taken events} : o.announcement? = some (before, after) →
      Exchange (.ask before) taken events → Opening o (!taken) events

/-- How a node is closed after it was entered, or passed over because somebody took it over. -/
inductive Closing (o : Occurrence) : Bool → List (Event ι) → Prop
  | plain {events} : o.announcement? = none → Remark o events → Closing o true events
  | announced {before after own told} : o.announcement? = some (before, after) →
      (if o.isCall then Resolution o own else own = []) → Exchange (.notify after) () told →
      Closing o true (own ++ told)
  | passed {before after told} : o.announcement? = some (before, after) →
      Exchange (.notify after) () told → Closing o false told

/-- What the visits of some nodes enter into the journal. -/
inductive Trail : List Occurrence → List (Event ι) → Prop
  | aside {events} : (∀ e ∈ events, e.isDeed) → Trail [] events
  | append {nodes nodes' events events'} : Trail nodes events → Trail nodes' events' →
      Trail (nodes ++ nodes') (events ++ events')
  | variable {o events} : o.isVariable → VariableCheck o events → Trail [o] events
  | node {o enters opening inner closing} : o.isVariable = false → Opening o enters opening →
      Trail (if enters then o.entered else []) inner → Closing o enters closing →
      Trail [o] (opening ++ inner ++ closing)

section

variable {κ : Type} {f : Event ι → Option κ} (hf : ∀ e : Event ι, e.isDeed → f e = none)

include hf

/-- Where deeds do not count, of an offer only its beginning and its end are left, and its report. -/
theorem Offered.filterMap {question : Question Occurrence CheckedType} {code : Code} {message : String}
    {place : Occurrence} {events : List (Event ι)} (h : Offered question code message place events)
    (hreport : f (.reported ⟨code, .error, message, some place.location⟩) = none) :
    ∃ registry handled, events.filterMap f =
      (f (.raised (.ask question) registry)).toList ++ (f (.settled (.ask question) handled)).toList := by
  cases h with
  | handled h =>
      obtain ⟨registry, hmap⟩ := h.filterMap hf
      exact ⟨registry, true, hmap⟩
  | unhandled h =>
      obtain ⟨registry, hmap⟩ := h.filterMap hf
      refine ⟨registry, false, ?_⟩
      rw [List.filterMap_append, hmap, List.filterMap_cons, hreport]
      exact List.append_nil _

/-- To look up types does not count either. -/
theorem filterMap_supplied (object : Occurrence) (receiver : CheckedType) (nodes : List Occurrence)
    (types : List CheckedType) (contributing narrowing choosing : List (Event ι)) :
    (.lookedUp object receiver :: (List.zipWith .lookedUp nodes types ++ contributing ++ narrowing
      ++ choosing)).filterMap f =
      contributing.filterMap f ++ narrowing.filterMap f ++ choosing.filterMap f := by
  have hlookups : (.lookedUp object receiver :: List.zipWith .lookedUp nodes types).filterMap f = [] := by
    refine filterMap_deeds hf fun e he => ?_
    rcases List.mem_cons.mp he with rfl | he
    · rfl
    · obtain ⟨i, hi, rfl⟩ := List.mem_iff_getElem.mp he
      rw [List.getElem_zipWith]
      rfl
  rw [← List.cons_append, ← List.cons_append, ← List.cons_append, List.filterMap_append,
    List.filterMap_append, List.filterMap_append, hlookups, List.nil_append]

end

/-- There is nothing to go into at a node that is announced. -/
theorem announcement?_of_matter? {o : Occurrence} {matter : Matter} (h : o.matter? = some matter) :
    o.announcement? = none := by
  rw [Occurrence.matter?] at h
  rw [Occurrence.announcement?]
  cases ht : o.treatment <;> simp_all

theorem Remark.inquiry_of_matter? {o : Occurrence} {matter : Matter} {events : List (Event ι)}
    (h : Remark o events) (hmatter : o.matter? = some matter) : Inquiry o matter events := by
  cases h with
  | nothing hnone =>
      rw [hnone] at hmatter
      cases hmatter
  | inquiry hsome h =>
      obtain rfl := Option.some.inj (hsome.symm.trans hmatter)
      exact h

/-- What there is to go into at a node, by the way in which it is treated. -/
inductive Concerns (o : Occurrence) : Matter → Prop
  | property {object name} : o.treatment = .propertyAccess → o.isCallee = false →
      o.child? .expression = some object → o.child? .name = some name →
      Concerns o (.property object name)
  | element {object key} : o.treatment = .elementAccess → o.child? .expression = some object →
      o.child? .argumentExpression = some key → Concerns o (.element object key)
  | declaration {value} : o.treatment = .declaration → o.child? .initializer = some value →
      Concerns o (.assigned (Visitor.declaredType o) value)
  | binary {value left} : o.treatment = .binary → Visitor.assignedValue? o = some value →
      o.child? .left = some left → Concerns o (.assigned left.node.info.type value)
  | return {value} : o.treatment = .return → o.child? .expression = some value →
      Concerns o (.returned o value (declaredReturn o.enclosingFunction?))
  | arrowBody {body} : o.treatment = .closure → o.kind = .arrowFunction → o.child? .body = some body →
      body.kind ≠ .block → Concerns o (.returned body body (declaredReturn (some o.node)))

theorem concerns_of_matter? {o : Occurrence} {matter : Matter} (h : o.matter? = some matter) :
    Concerns o matter := by
  rw [Occurrence.matter?] at h
  cases ht : o.treatment with
  | propertyAccess =>
      rw [ht] at h
      obtain ⟨hcallee, h⟩ := Option.ite_none_left_eq_some.mp h
      obtain ⟨object, hobject, h⟩ := Option.bind_eq_some_iff.mp h
      obtain ⟨name, hname, rfl⟩ := Option.map_eq_some_iff.mp h
      exact .property ht (Bool.eq_false_iff.mpr hcallee) hobject hname
  | elementAccess =>
      rw [ht] at h
      obtain ⟨object, hobject, h⟩ := Option.bind_eq_some_iff.mp h
      obtain ⟨key, hkey, rfl⟩ := Option.map_eq_some_iff.mp h
      exact .element ht hobject hkey
  | declaration =>
      rw [ht] at h
      obtain ⟨value, hvalue, rfl⟩ := Option.map_eq_some_iff.mp h
      exact .declaration ht hvalue
  | binary =>
      rw [ht] at h
      obtain ⟨value, hvalue, h⟩ := Option.bind_eq_some_iff.mp h
      obtain ⟨left, hleft, rfl⟩ := Option.map_eq_some_iff.mp h
      exact .binary ht hvalue hleft
  | «return» =>
      rw [ht] at h
      obtain ⟨value, hvalue, rfl⟩ := Option.map_eq_some_iff.mp h
      exact .return ht hvalue
  | closure =>
      rw [ht] at h
      obtain ⟨body, hbody, rfl⟩ := Option.map_eq_some_iff.mp h
      obtain ⟨hbody, hkinds⟩ := Option.filter_eq_some_iff.mp hbody
      have hkinds : o.kind = .arrowFunction ∧ body.kind ≠ .block := by simpa using hkinds
      exact .arrowBody ht hkinds.1 hbody hkinds.2
  | _ => simp [ht] at h

/-- A matter that arises at a node is a mistake there unless its subject settles it. -/
theorem mistaken_of_matter? {o : Occurrence} {matter : Matter} (h : o.matter? = some matter)
    (harises : matter.arises o) (type : CheckedType) : Mistaken o (matter.question o type) := by
  cases concerns_of_matter? h with
  | property ht hcallee => exact .property ht hcallee
  | element ht => exact .attribute ht
  | declaration ht hvalue =>
      exact .assignment (by simp [ht]) (by simp [Occurrence.checkedSite?, ht, hvalue]) harises
  | binary ht hvalue hleft =>
      exact .assignment (by simp [ht]) (by simp [Occurrence.checkedSite?, ht, hvalue, hleft]) harises
  | «return» ht hvalue => exact .return ht (by simp [Occurrence.checkedSite?, ht, hvalue]) harises
  | arrowBody _ hkind hbody hblock => exact .arrowBody hkind hbody hblock harises

theorem Trail.nil : Trail ([] : List Occurrence) ([] : List (Event ι)) := .aside (List.forall_mem_nil _)

end

namespace Occurrence

variable {o c : Occurrence}

theorem isNamedBy_iff (h : c ∈ o.children) : o.isNamedBy c ↔ o.child? .name = some c := by
  rw [isNamedBy]
  cases hchild : o.child? .name with
  | none => simp
  | some n =>
      rw [Option.any_some, decide_eq_true_iff, Option.some.injEq]
      constructor
      · intro hid
        have hn := mem_children_of_child? hchild
        exact eq_of_mem_children_of_mem_lineage hn h (mem_lineage_self hn) (mem_lineage_self h) hid
      · rintro rfl
        rfl

/-- A child other than the name of a shorthand property names none. -/
theorem isShorthandName_of_mem_children (h : c ∈ o.children)
    (hrole : o.lineage.head?.any (·.kind = .shorthandProperty) → c.node.role ≠ .name) :
    c.isShorthandName = false := by
  refine Bool.eq_false_iff.mpr fun hname => ?_
  rw [isShorthandName, ancestors_of_mem_children h] at hname
  cases hhead : o.lineage.head? with
  | none =>
      rw [hhead] at hname
      cases hname
  | some p =>
      obtain rfl : p = o := eq_of_head?_lineage hhead
      rw [hhead, Option.any_some] at hname hrole
      obtain ⟨hkind, hname⟩ := Bool.and_eq_true_iff.mp hname
      have hchild := (isNamedBy_iff h).mp hname
      exact hrole hkind (role_of_child? hchild)

theorem isShorthandName_of_child? (hhead : o.lineage.head? = some o)
    (hkind : o.kind = .shorthandProperty) (h : o.child? .name = some c) :
    c.isShorthandName = true := by
  have hmem := mem_children_of_child? h
  rw [isShorthandName, ancestors_of_mem_children hmem, hhead, Option.any_some,
    (isNamedBy_iff hmem).mpr h, Bool.and_true, decide_eq_true_iff]
  exact hkind

theorem kind_ne_identifier (h : o.treatment ≠ .identifier) : o.kind ≠ .identifier := by
  intro hk
  apply h
  rw [treatment_of_kind (by simp [hk]), hk]
  rfl

theorem isCall_iff : o.isCall ↔ o.treatment = .call := by
  constructor
  · intro h
    have hkind : o.kind = .callExpression ∨ o.kind = .newExpression := by simpa [isCall] using h
    rcases hkind with hk | hk <;> rw [treatment_of_kind (by simp [hk]), hk] <;> rfl
  · exact isCall_of_treatment

theorem kind_of_member? {object name : Occurrence} (h : o.member? = some (object, name)) :
    o.kind = .callExpression := by
  obtain ⟨callee, -, h⟩ := Option.bind_eq_some_iff.mp h
  split at h
  · rename_i hkinds
    exact hkinds.1
  · cases h

theorem isVariable_eq_false (hname : o.isShorthandName = false) (h : o.treatment ≠ .identifier) :
    o.isVariable = false := by
  simp [isVariable, hname, kind_ne_identifier h]

end Occurrence

end ExtensibleCheck
