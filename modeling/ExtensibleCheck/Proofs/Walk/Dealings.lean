import ExtensibleCheck.Proofs.Session.Changes
import ExtensibleCheck.Proofs.Syntax.Lineage
import ExtensibleCheck.Session.Check

/-! The dealings that the walk through a file is put together from. At a node it looks up types, offers
mistakes to the extensions and reports them, has missing methods supplied and selects methods, and it
visits the children, where it announces nodes and encloses closures; it does nothing else. Properties of
whole runs follow by induction on this, whatever the tree, the extensions and their answers are. -/

namespace ExtensibleCheck

/-- The node that a hook announces. -/
def HookCall.announced? : HookCall Occurrence CheckedType → Option Occurrence
  | .ask (.beforeVisitMethod o) | .ask (.beforeVisitClass o) | .ask (.beforeMethodCall o) => some o
  | _ => none

namespace Occurrence

/-- How a class, a method or a call is announced and taken leave of. A method without a body is not. -/
def announcement? (o : Occurrence) :
    Option (Question Occurrence CheckedType × Notice Occurrence CheckedType) :=
  match o.treatment with
  | .classLike => some (.beforeVisitClass o, .afterVisitClass o)
  | .methodLike =>
    if (o.child? .body).isSome then some (.beforeVisitMethod o, .afterVisitMethod o) else none
  | .call => some (.beforeMethodCall o, .afterMethodCall o)
  | _ => none

def isAnnounced (o : Occurrence) : Bool := o.announcement?.isSome

/-- Whether the node is a method that is only declared. -/
def isBodiless (o : Occurrence) : Bool := o.kind.isMethodLike && (o.child? .body).isNone

theorem treatment_of_kind {o : Occurrence} (h : o.kind ≠ .expressionWithTypeArguments) :
    o.treatment = o.kind.treatment := by
  simp [treatment, isClassBase, h]

theorem kind_of_treatment {o : Occurrence} {t : Treatment} (h : o.treatment = t)
    (hne : t ≠ .classBase) : o.kind.treatment = t := by
  rw [treatment] at h
  split at h
  · exact absurd h.symm hne
  · exact h

theorem isClosure_iff {o : Occurrence} : o.kind.isClosure ↔ o.treatment = .closure := by
  constructor
  · intro h
    rw [treatment_of_kind fun hk => by simp [hk, Kind.isClosure] at h]
    exact (Kind.treatment_eq_closure_iff _).mpr h
  · intro h
    exact (Kind.treatment_eq_closure_iff _).mp (kind_of_treatment h (by decide))

theorem isMethodLike_iff {o : Occurrence} : o.kind.isMethodLike ↔ o.treatment = .methodLike := by
  constructor
  · intro h
    rw [treatment_of_kind fun hk => by simp [hk, Kind.isMethodLike] at h]
    exact (Kind.treatment_eq_methodLike_iff _).mpr h
  · intro h
    exact (Kind.treatment_eq_methodLike_iff _).mp (kind_of_treatment h (by decide))

theorem isBodiless_of_treatment {o : Occurrence} (h : o.treatment ≠ .methodLike) :
    o.isBodiless = false := by
  have hkind := Bool.eq_false_iff.mpr fun hkind => h (isMethodLike_iff.mp hkind)
  rw [isBodiless, hkind, Bool.false_and]

/-- Whatever is announced has a body to be entered. -/
theorem isBodiless_of_announcement? {o : Occurrence}
    {crossing : Question Occurrence CheckedType × Notice Occurrence CheckedType}
    (h : o.announcement? = some crossing) : o.isBodiless = false := by
  rw [announcement?] at h
  split at h
  · rename_i ht
    exact isBodiless_of_treatment (by simp [ht])
  · split at h
    · rename_i hbody
      rw [isBodiless, ← Option.not_isSome, hbody, Bool.not_true, Bool.and_false]
    · cases h
  · rename_i ht
    exact isBodiless_of_treatment (by simp [ht])
  · cases h

/-- The brackets of a node are about that node. -/
theorem announcement?_spec {o : Occurrence} {before : Question Occurrence CheckedType}
    {after : Notice Occurrence CheckedType} (h : o.announcement? = some (before, after)) :
    before.node = o ∧ after.node? = some o ∧
      (HookCall.ask before).announced? = some o ∧ (HookCall.notify after).announced? = none := by
  rw [announcement?] at h
  split at h
  · cases h
    exact ⟨rfl, rfl, rfl, rfl⟩
  · split at h
    · cases h
      exact ⟨rfl, rfl, rfl, rfl⟩
    · cases h
  · cases h
    exact ⟨rfl, rfl, rfl, rfl⟩
  · cases h

/-- Leave is not taken of a node by telling of a selection. -/
theorem isSelection_of_announcement? {o : Occurrence} {before : Question Occurrence CheckedType}
    {after : Notice Occurrence CheckedType} (h : o.announcement? = some (before, after)) :
    (HookCall.notify after).isSelection = false := by
  rw [announcement?] at h
  split at h
  · cases h
    rfl
  · split at h
    · cases h
      rfl
    · cases h
  · cases h
    rfl
  · cases h

theorem isClosure_of_announcement?
    {crossing : Question Occurrence CheckedType × Notice Occurrence CheckedType} {o : Occurrence}
    (h : o.announcement? = some crossing) : o.kind.isClosure = false := by
  refine Bool.eq_false_iff.mpr fun hclosure => ?_
  rw [announcement?, isClosure_iff.mp hclosure] at h
  cases h

/-- Only calls are treated as such, so no child of another node is a callee. -/
theorem kind_ne_callExpression {o : Occurrence} (h : o.treatment ≠ .call) :
    o.kind ≠ .callExpression := by
  intro hk
  apply h
  rw [treatment_of_kind (by simp [hk]), hk]
  rfl

theorem isCall_of_treatment {o : Occurrence} (h : o.treatment = .call) : o.isCall := by
  have hkind := kind_of_treatment h (by decide)
  cases hk : o.kind <;> simp_all [isCall, Kind.treatment]

end Occurrence

/-- Under which code and where a mistake is reported if no extension takes care of it. To announce a
node is no mistake. -/
def Question.mistake? : Question Occurrence CheckedType → Option (Code × Occurrence)
  | .unresolvedVariable name => some (.unresolvedVariable, name)
  | .unresolvedProperty access =>
    (access.child? .name).map fun name => (.unresolvedProperty, name)
  | .unresolvedAttribute access => some (.unresolvedAttribute, access)
  | .incompatibleAssignment _ _ node => some (.incompatibleAssignment, node)
  | .incompatibleReturn site _ => some (.incompatibleReturn, site)
  | .beforeVisitMethod _ | .beforeVisitClass _ | .beforeMethodCall _ => none

namespace Visitor

open Session Run SessionState

variable {ι μ : Type} [DecidableEq ι] (v : Visitor ι μ)

/-- The hooks that the walk uses at a node, apart from announcing it. -/
inductive Uses (o : Occurrence) : HookCall Occurrence CheckedType → Prop
  | identifier : o.treatment = .identifier → Uses o (.ask (.unresolvedVariable o))
  | shorthand {name} : o.treatment = .shorthand → o.child? .name = some name →
      Uses o (.ask (.unresolvedVariable name))
  | property : o.treatment = .propertyAccess → o.isCallee = false →
      Uses o (.ask (.unresolvedProperty o))
  | element : o.treatment = .elementAccess → Uses o (.ask (.unresolvedAttribute o))
  | declared {target assigned value} : o.treatment = .declaration →
      o.child? .initializer = some value → o.node.reportsWithin v.incompatible →
      Uses o (.ask (.incompatibleAssignment target assigned o))
  | assigned {target assigned value} : o.treatment = .binary → assignedValue? o = some value →
      o.node.reportsWithin v.incompatible →
      Uses o (.ask (.incompatibleAssignment target assigned o))
  | returned {inferred value} : o.treatment = .return → o.child? .expression = some value →
      o.node.reportsWithin v.incompatible → Uses o (.ask (.incompatibleReturn o inferred))
  | arrowBody {body inferred} : o.kind = .arrowFunction → o.child? .body = some body →
      body.kind ≠ .block → body.node.reportsWithin v.incompatible →
      Uses o (.ask (.incompatibleReturn body inferred))
  | missing {receiver name arguments types} : o.treatment = .call →
      Uses o (.contribute ⟨receiver, name, arguments, types, o⟩)
  | ambiguous {candidates} : o.treatment = .call → Uses o (.narrow candidates o)
  | selection {target} : o.treatment = .call → Uses o (.notify (.methodSelection o target))

omit [DecidableEq ι] in
variable {v} in
/-- A hook that the walk uses at a node is about that node, which is no closure then, or about a child
of it. -/
theorem Uses.node? {o : Occurrence} {call : HookCall Occurrence CheckedType} (h : v.Uses o call) :
    ∃ n, call.node? = some n ∧ (n = o ∧ o.kind.isClosure = false ∨ n ∈ o.children) := by
  have hplain (ht : o.treatment ≠ .closure) : o = o ∧ o.kind.isClosure = false ∨ o ∈ o.children :=
    Or.inl ⟨rfl, Bool.eq_false_iff.mpr fun h => ht (Occurrence.isClosure_iff.mp h)⟩
  cases h with
  | shorthand _ hname => exact ⟨_, rfl, Or.inr (Occurrence.mem_children_of_child? hname)⟩
  | arrowBody _ hbody _ _ => exact ⟨_, rfl, Or.inr (Occurrence.mem_children_of_child? hbody)⟩
  | identifier ht => exact ⟨o, rfl, hplain (by simp [ht])⟩
  | property ht _ => exact ⟨o, rfl, hplain (by simp [ht])⟩
  | element ht => exact ⟨o, rfl, hplain (by simp [ht])⟩
  | declared ht _ _ => exact ⟨o, rfl, hplain (by simp [ht])⟩
  | assigned ht _ _ => exact ⟨o, rfl, hplain (by simp [ht])⟩
  | returned ht _ _ => exact ⟨o, rfl, hplain (by simp [ht])⟩
  | missing ht => exact ⟨o, rfl, hplain (by simp [ht])⟩
  | ambiguous ht => exact ⟨o, rfl, hplain (by simp [ht])⟩
  | selection ht => exact ⟨o, rfl, hplain (by simp [ht])⟩

/-- Has the extensions supply a missing method, and goes by what they agree on. -/
def supply (call name : Occurrence) (receiver : CheckedType) (arguments : List Occurrence)
    (types : List CheckedType) : Session ι μ Unit := do
  let found ← v.checker.raise (.contribute ⟨receiver, name.text, arguments, types, call⟩)
  let chosen ← if 1 < found.length then v.checker.raise (.narrow found call) else pure found
  v.choose call name receiver types chosen

/-- What the walk is put together from below a node, with the children that it comes to. Only nodes of the
same file are looked up, and a method is selected without further ado if the compiler resolved it. A child
is only entered by a walk that comes to each of its own children once. -/
inductive Deals : Occurrence → List Occurrence → Session ι μ Unit → Prop
  | nothing (o children) : Deals o children (pure ())
  | andThen {o children children' m m'} : Deals o children m → Deals o children' m' →
      Deals o (children ++ children') (m >>= fun _ => m')
  | say {o} (line : String) : Deals o [] (v.checker.dispatcher.say line)
  | lookUp {o children node f} : node.file = o.file → (∀ type, Deals o children (f type)) →
      Deals o children (typeOf node >>= f)
  | askStored {o children node f} : node.file = o.file → (∀ answer, Deals o children (f answer)) →
      Deals o children (hasStored node >>= f)
  | offer {o question code place} (message : String) : v.Uses o (.ask question) →
      question.mistake? = some (code, place) → Deals o [] (v.offer question code message place)
  | select {o target} : o.treatment = .call → target.synthetic = false →
      Deals o [] (v.checker.select o target)
  | supply {o} (name receiver arguments types) : o.treatment = .call →
      Deals o [] (v.supply o name receiver arguments types)
  | inside {o child children m} : child ∈ o.children → child.announcement? = none →
      child.kind.isClosure = false → child.isBodiless = false → children.Nodup →
      Deals child children m → Deals o [child] m
  | announced {o child before after children body} : child ∈ o.children →
      child.announcement? = some (before, after) → children.Nodup → Deals child children body →
      Deals o [child] (v.announced before after body)
  | enclosed {o child children body} : child ∈ o.children → child.kind.isClosure = true →
      children.Nodup → Deals child children body → Deals o [child] (v.enclosed child body)

/-- The same visitor on behalf of another checker. -/
def withChecker (c' : Checker ι μ) : Visitor ι μ := { v with checker := c' }

/-- The walks of two checkers below the same node, which are put together in the same way. -/
inductive Twins (c' : Checker ι μ) :
    Occurrence → List Occurrence → Session ι μ Unit → Session ι μ Unit → Prop
  | nothing (o children) : Twins c' o children (pure ()) (pure ())
  | andThen {o children children' m m' n n'} : Twins c' o children m m' → Twins c' o children' n n' →
      Twins c' o (children ++ children') (m >>= fun _ => n) (m' >>= fun _ => n')
  | say {o} (line : String) :
      Twins c' o [] (v.checker.dispatcher.say line) (c'.dispatcher.say line)
  | lookUp {o children node f f'} : node.file = o.file →
      (∀ type, Twins c' o children (f type) (f' type)) →
      Twins c' o children (typeOf node >>= f) (typeOf node >>= f')
  | askStored {o children node f f'} : node.file = o.file →
      (∀ answer, Twins c' o children (f answer) (f' answer)) →
      Twins c' o children (hasStored node >>= f) (hasStored node >>= f')
  | offer {o question code place} (message : String) : v.Uses o (.ask question) →
      question.mistake? = some (code, place) → Twins c' o [] (v.offer question code message place)
        ((v.withChecker c').offer question code message place)
  | select {o target} : o.treatment = .call → target.synthetic = false →
      Twins c' o [] (v.checker.select o target) (c'.select o target)
  | supply {o} (name receiver arguments types) : o.treatment = .call →
      Twins c' o [] (v.supply o name receiver arguments types)
        ((v.withChecker c').supply o name receiver arguments types)
  | inside {o child children m m'} : child ∈ o.children → child.announcement? = none →
      child.kind.isClosure = false → child.isBodiless = false → children.Nodup →
      Twins c' child children m m' → Twins c' o [child] m m'
  | announced {o child before after children body body'} : child ∈ o.children →
      child.announcement? = some (before, after) → children.Nodup → Twins c' child children body body' →
      Twins c' o [child] (v.announced before after body)
        ((v.withChecker c').announced before after body')
  | enclosed {o child children body body'} : child ∈ o.children → child.kind.isClosure = true →
      children.Nodup → Twins c' child children body body' →
      Twins c' o [child] (v.enclosed child body) ((v.withChecker c').enclosed child body')

variable {v}

/-- Either of two such walks is put together like any walk. -/
theorem Twins.deals {c' : Checker ι μ} {o : Occurrence} {children : List Occurrence}
    {m m' : Session ι μ Unit} (h : v.Twins c' o children m m') : v.Deals o children m := by
  induction h with
  | nothing => exact .nothing _ _
  | andThen _ _ ih ih' => exact .andThen ih ih'
  | say line => exact .say line
  | lookUp hnode _ ih => exact .lookUp hnode ih
  | askStored hnode _ ih => exact .askStored hnode ih
  | offer message huse hmistake => exact .offer message huse hmistake
  | select ht hresolved => exact .select ht hresolved
  | supply name receiver arguments types ht => exact .supply name receiver arguments types ht
  | inside hchild hplain hopen hbody honce _ ih => exact .inside hchild hplain hopen hbody honce ih
  | announced hchild hannounced honce _ ih => exact .announced hchild hannounced honce ih
  | enclosed hchild hclosure honce _ ih => exact .enclosed hchild hclosure honce ih

omit [DecidableEq ι] in
/-- Which hooks are used does not depend on the checker. -/
theorem Uses.withChecker {o : Occurrence} {call : HookCall Occurrence CheckedType}
    (h : v.Uses o call) (c' : Checker ι μ) : (v.withChecker c').Uses o call := by
  cases h with
  | identifier ht => exact .identifier ht
  | shorthand ht hname => exact .shorthand ht hname
  | property ht hcallee => exact .property ht hcallee
  | element ht => exact .element ht
  | declared ht hvalue hwithin => exact .declared ht hvalue hwithin
  | assigned ht hvalue hwithin => exact .assigned ht hvalue hwithin
  | returned ht hvalue hwithin => exact .returned ht hvalue hwithin
  | arrowBody harrow hbody hblock hwithin => exact .arrowBody harrow hbody hblock hwithin
  | missing ht => exact .missing ht
  | ambiguous ht => exact .ambiguous ht
  | selection ht => exact .selection ht

theorem Twins.symm {c' : Checker ι μ} {o : Occurrence} {children : List Occurrence}
    {m m' : Session ι μ Unit} (h : v.Twins c' o children m m') :
    (v.withChecker c').Twins v.checker o children m' m := by
  induction h with
  | nothing => exact .nothing _ _
  | andThen _ _ ih ih' => exact .andThen ih ih'
  | say line => exact .say line
  | lookUp hnode _ ih => exact .lookUp hnode ih
  | askStored hnode _ ih => exact .askStored hnode ih
  | offer message huse hmistake => exact .offer message (huse.withChecker c') hmistake
  | select ht hresolved => exact .select ht hresolved
  | supply name receiver arguments types ht => exact .supply name receiver arguments types ht
  | inside hchild hplain hopen hbody honce _ ih => exact .inside hchild hplain hopen hbody honce ih
  | announced hchild hannounced honce _ ih => exact .announced hchild hannounced honce ih
  | enclosed hchild hclosure honce _ ih => exact .enclosed hchild hclosure honce ih

omit [DecidableEq ι] in
theorem file_of_assignedValue? {o value : Occurrence} (h : assignedValue? o = some value) :
    value.file = o.file := by
  unfold assignedValue? at h
  split at h
  · split at h
    · cases h
      rfl
    · exact Occurrence.file_of_child? h
  · cases h

namespace Twins

variable {c' : Checker ι μ} {o : Occurrence} {children : List Occurrence}

theorem ite {p : Prop} [Decidable p] {m m' n n' : Session ι μ Unit}
    (h : p → v.Twins c' o children m m') (h' : ¬p → v.Twins c' o children n n') :
    v.Twins c' o children (if p then m else n) (if p then m' else n') := by
  by_cases hp : p
  · rw [if_pos hp, if_pos hp]
    exact h hp
  · rw [if_neg hp, if_neg hp]
    exact h' hp

theorem lookUpAll {nodes : List Occurrence} (hnodes : ∀ node ∈ nodes, node.file = o.file)
    {f f' : List CheckedType → Session ι μ Unit}
    (hf : ∀ types, v.Twins c' o children (f types) (f' types)) :
    v.Twins c' o children (nodes.mapM typeOf >>= f) (nodes.mapM typeOf >>= f') := by
  induction nodes generalizing f f' with
  | nil => exact hf []
  | cons node nodes ih =>
      rw [List.mapM_cons, bind_assoc, bind_assoc]
      obtain ⟨hnode, hnodes⟩ := List.forall_mem_cons.mp hnodes
      refine .lookUp hnode fun type => ?_
      rw [bind_assoc, bind_assoc]
      exact ih hnodes fun types => hf (type :: types)

theorem checkVariable {name : Occurrence} (hname : name.file = o.file)
    (h : v.Uses o (.ask (.unresolvedVariable name))) (hasSymbol : Bool) :
    v.Twins c' o [] (v.checkVariable name hasSymbol)
      ((v.withChecker c').checkVariable name hasSymbol) :=
  .askStored hname fun _ => ite (fun _ => .nothing o _) fun _ => .offer _ h rfl

theorem checkIdentifier (h : o.treatment = .identifier) :
    v.Twins c' o [] (v.checkIdentifier o) ((v.withChecker c').checkIdentifier o) :=
  ite (fun _ => checkVariable rfl (.identifier h) _) fun _ => .nothing o _

theorem checkShorthand (h : o.treatment = .shorthand) :
    v.Twins c' o [] (v.checkShorthand o) ((v.withChecker c').checkShorthand o) := by
  rw [Visitor.checkShorthand, Visitor.checkShorthand]
  cases hname : o.child? .name with
  | some name => exact checkVariable (Occurrence.file_of_child? hname) (.shorthand h hname) _
  | none => exact .nothing o _

theorem checkProperty (h : o.treatment = .propertyAccess) (hcallee : o.isCallee = false) :
    v.Twins c' o [] (v.checkProperty o) ((v.withChecker c').checkProperty o) := by
  rw [Visitor.checkProperty, Visitor.checkProperty]
  cases hobject : o.child? .expression with
  | none => exact .nothing o _
  | some object =>
      cases hname : o.child? .name with
      | none => exact .nothing o _
      | some name =>
          refine .askStored rfl fun _ => ite (fun _ => .nothing o _) fun _ => ?_
          refine .lookUp (Occurrence.file_of_child? hobject) fun receiver => ite (fun _ => .nothing o _) fun _ => ?_
          exact .offer _ (.property h hcallee) (by rw [Question.mistake?, hname, Option.map_some])

theorem checkAttribute (h : o.treatment = .elementAccess) :
    v.Twins c' o [] (v.checkAttribute o) ((v.withChecker c').checkAttribute o) := by
  rw [Visitor.checkAttribute, Visitor.checkAttribute]
  cases hobject : o.child? .expression with
  | none => exact .nothing o _
  | some object =>
      cases o.child? .argumentExpression with
      | none => exact .nothing o _
      | some key =>
          refine ite (fun _ => ?_) fun _ => .nothing o _
          refine .askStored rfl fun _ => ite (fun _ => .nothing o _) fun _ => ?_
          refine .lookUp (Occurrence.file_of_child? hobject) fun receiver => ite (fun _ => .nothing o _) fun _ => ?_
          exact .offer _ (.element h) rfl

theorem selectResolved (h : o.treatment = .call) :
    v.Twins c' o [] (v.selectResolved o) ((v.withChecker c').selectResolved o) := by
  rw [Visitor.selectResolved, Visitor.selectResolved]
  cases o.node.info.signature with
  | none => exact .nothing o _
  | some signature =>
      dsimp only
      cases signature.declaration with
      | none => exact .nothing o _
      | some declaration => exact ite (fun _ => .nothing o _) fun _ => .select h rfl

theorem resolveMember (h : o.treatment = .call) {callee : Occurrence} (hcallee : callee ∈ o.children) :
    v.Twins c' o [] (v.resolveMember o callee) ((v.withChecker c').resolveMember o callee) := by
  rw [Visitor.resolveMember, Visitor.resolveMember]
  cases hobject : callee.child? .expression with
  | none => exact .nothing o _
  | some object =>
      cases callee.child? .name with
      | none => exact .nothing o _
      | some name =>
          refine ite (fun _ => selectResolved h) fun _ => ?_
          have hreceiver := (Occurrence.file_of_child? hobject).trans
            (Occurrence.file_of_mem_children hcallee)
          have harguments : ∀ argument ∈ o.withRole .argument, argument.file = o.file :=
            fun argument hargument =>
              Occurrence.file_of_mem_children (List.mem_of_mem_filter hargument)
          refine .lookUp hreceiver fun receiver => ite (fun _ => .nothing o _) fun _ => ?_
          exact lookUpAll harguments fun types => .supply _ receiver _ types h

theorem resolveCall (h : o.treatment = .call) :
    v.Twins c' o [] (v.resolveCall o) ((v.withChecker c').resolveCall o) := by
  rw [Visitor.resolveCall, Visitor.resolveCall]
  cases hcallee : o.child? .expression with
  | some callee =>
      exact ite (fun _ => resolveMember h (Occurrence.mem_children_of_child? hcallee))
        fun _ => selectResolved h
  | none => exact selectResolved h

theorem checkAssigned {target : CheckedType} {value : Occurrence} (hvalue : value.file = o.file)
    (h : ∀ assigned, o.node.reportsWithin v.incompatible →
      v.Uses o (.ask (.incompatibleAssignment target assigned o))) :
    v.Twins c' o [] (v.checkAssigned o target value)
      ((v.withChecker c').checkAssigned o target value) := by
  refine ite (fun hwithin => ?_) fun _ => .nothing o _
  exact .lookUp hvalue fun assigned => .offer _ (h assigned hwithin) rfl

theorem checkDeclaration (h : o.treatment = .declaration) :
    v.Twins c' o [] (v.checkDeclaration o) ((v.withChecker c').checkDeclaration o) := by
  rw [Visitor.checkDeclaration, Visitor.checkDeclaration]
  cases hvalue : o.child? .initializer with
  | some value =>
      exact checkAssigned (Occurrence.file_of_child? hvalue) fun _ hwithin => .declared h hvalue hwithin
  | none => exact .nothing o _

theorem checkBinary (h : o.treatment = .binary) :
    v.Twins c' o [] (v.checkBinary o) ((v.withChecker c').checkBinary o) := by
  rw [Visitor.checkBinary, Visitor.checkBinary]
  cases hvalue : assignedValue? o with
  | none => exact .nothing o _
  | some value =>
      cases o.child? .left with
      | none => exact .nothing o _
      | some left =>
          exact checkAssigned (file_of_assignedValue? hvalue) fun _ hwithin =>
            .assigned h hvalue hwithin

theorem checkReturned {site value : Occurrence} {function : Option Node} (hvalue : value.file = o.file)
    (h : ∀ inferred, site.node.reportsWithin v.incompatible →
      v.Uses o (.ask (.incompatibleReturn site inferred))) :
    v.Twins c' o [] (v.checkReturned site value function)
      ((v.withChecker c').checkReturned site value function) := by
  refine ite (fun hwithin => ?_) fun _ => .nothing o _
  exact .lookUp hvalue fun inferred => .offer _ (h inferred hwithin) rfl

theorem checkReturn (h : o.treatment = .return) :
    v.Twins c' o [] (v.checkReturn o) ((v.withChecker c').checkReturn o) := by
  rw [Visitor.checkReturn, Visitor.checkReturn]
  cases hvalue : o.child? .expression with
  | some value =>
      exact checkReturned (Occurrence.file_of_child? hvalue) fun _ hwithin => .returned h hvalue hwithin
  | none => exact .nothing o _

theorem checkArrowBody : v.Twins c' o [] (v.checkArrowBody o)
    ((v.withChecker c').checkArrowBody o) := by
  rw [Visitor.checkArrowBody, Visitor.checkArrowBody]
  cases hbody : o.child? .body with
  | none => exact .nothing o _
  | some body =>
      refine ite (fun hexpression => ?_) fun _ => .nothing o _
      have hkinds : o.kind = .arrowFunction ∧ body.kind ≠ .block := by simpa using hexpression
      exact checkReturned (Occurrence.file_of_child? hbody) fun _ hwithin =>
        .arrowBody hkinds.1 hbody hkinds.2 hwithin

/-- A node that is neither announced nor a closure is visited by what its inside is visited by. -/
theorem ofPlain {parent : Occurrence} (ho : o ∈ parent.children) {m m' : Session ι μ Unit}
    (hm : v.Twins c' o children m m') (honce : children.Nodup)
    (h : o.treatment ∉ [.classLike, .methodLike, .call, .closure]) :
    v.Twins c' parent [o] m m' := by
  simp only [List.mem_cons, List.not_mem_nil, or_false, not_or] at h
  obtain ⟨hclass, hmethod, hcall, hclosure⟩ := h
  refine .inside ho ?_ ?_ ?_ honce hm
  · cases ht : o.treatment <;> simp_all [Occurrence.announcement?]
  · exact Bool.eq_false_iff.mpr fun h => hclosure (Occurrence.isClosure_iff.mp h)
  · exact Occurrence.isBodiless_of_treatment hmethod

end Twins

/-- Whether the child of `o` that plays a role is what a call calls. -/
def calls (o : Occurrence) (role : Role) : Bool :=
  role = .expression && o.lineage.head?.any (·.kind = .callExpression)

theorem calls_eq_false {o : Occurrence} (h : o.treatment ≠ .call) (role : Role) :
    calls o role = false := by
  have hkind := Occurrence.kind_ne_callExpression h
  obtain ⟨file, node, above⟩ := o
  cases above with
  | nil => exact Bool.and_false _
  | cons a above => simp [calls, Occurrence.lineage, Occurrence.lineageOf, hkind]

/-- What a call expression calls is its callee; what `new` creates is not called. -/
theorem eq_calls_of_callee {o : Occurrence} (hhead : o.lineage.head? = some o) {role : Role}
    (h : decide (role = .expression) = true) : decide (o.kind = .callExpression) = calls o role := by
  have hrole : role = .expression := of_decide_eq_true h
  simp [calls, hhead, hrole]

theorem eq_calls_of_argument {o : Occurrence} {role : Role} (h : decide (role = .argument) = true) :
    false = calls o role := by
  have hrole : role = .argument := of_decide_eq_true h
  simp [calls, hrole]

/-- Those children, from index `branch` on, that play one of the chosen roles. -/
def chosenAmong (o : Occurrence) (chosen : Role → Bool) (branch : Nat) (rest : List Node) :
    List Occurrence :=
  ((rest.zipIdx branch).map fun (child, i) => o.below child i).filter fun child =>
    chosen child.node.role

theorem chosenAmong_cons (o : Occurrence) (chosen : Role → Bool) (branch : Nat) (child : Node)
    (rest : List Node) :
    chosenAmong o chosen branch (child :: rest) =
      if chosen child.role then o.below child branch :: chosenAmong o chosen (branch + 1) rest
      else chosenAmong o chosen (branch + 1) rest := by
  show List.filter _ (o.below child branch :: _) = _
  rw [List.filter_cons]
  rfl

/-- The children that play one of the chosen roles. -/
def chosenFrom (o : Occurrence) (chosen : Role → Bool) : List Occurrence :=
  o.children.filter fun child => chosen child.node.role

/-- Children chosen by roles that exclude each other are chosen once. -/
theorem nodup_chosenFrom_append (o : Occurrence) {chosen chosen' : Role → Bool}
    (h : ∀ role, chosen role → chosen' role = false) :
    (chosenFrom o chosen ++ chosenFrom o chosen').Nodup := by
  refine List.nodup_append.mpr ⟨o.nodup_children.filter _, o.nodup_children.filter _, ?_⟩
  rintro child hchild _ hchild' rfl
  have hrole := h _ (List.mem_filter.mp hchild).2
  rw [(List.mem_filter.mp hchild').2] at hrole
  cases hrole

/-- The walks of two visits, once those of going through the children are known. -/
theorem visit_twins_of_children {c' : Checker ι μ} {parent : Occurrence} (a : Ancestor) (above : List Ancestor) (isCallee : Bool)
    (info : NodeInfo) (children : List Node) {o : Occurrence} (hmem : o ∈ parent.children)
    (ho : o = ⟨v.file, .mk info children, a :: above⟩) (hcallee : isCallee = o.isCallee)
    (hchildren : ∀ (chosen : Role → Bool) (called : Bool),
      (∀ role, chosen role → called = calls o role) →
        v.Twins c' o (chosenFrom o chosen) (v.visitAmong o chosen called 0 children)
          ((v.withChecker c').visitAmong o chosen called 0 children)) :
    v.Twins c' parent [o] (v.visit (a :: above) isCallee (.mk info children))
      ((v.withChecker c').visit (a :: above) isCallee (.mk info children)) := by
  have hhead : o.lineage.head? = some o := by rw [ho]; rfl
  have hfile : (v.withChecker c').file = v.file := rfl
  rw [visit, visit, hfile, ← ho]
  have hplain (chosen : Role → Bool) (h : o.treatment ≠ .call) :
      v.Twins c' o (chosenFrom o chosen) (v.visitAmong o chosen false 0 children)
        ((v.withChecker c').visitAmong o chosen false 0 children) :=
    hchildren chosen false fun role _ => (calls_eq_false h role).symm
  have hone (chosen : Role → Bool) : (chosenFrom o chosen).Nodup := o.nodup_children.filter _
  have hlast (chosen : Role → Bool) : (chosenFrom o chosen ++ []).Nodup := by
    rw [List.append_nil]
    exact hone chosen
  cases ht : o.treatment with
  | skipped => exact .nothing parent _
  | classBase => exact .ofPlain hmem (hplain _ (by simp [ht])) (hone _) (by simp [ht])
  | classLike =>
      exact .announced hmem (by simp [Occurrence.announcement?, ht]) (hone _) (hplain _ (by simp [ht]))
  | methodLike =>
      dsimp only
      split
      · rename_i hbody
        exact .announced hmem (by simp [Occurrence.announcement?, ht, hbody]) (hone _)
          (hplain _ (by simp [ht]))
      · exact .nothing parent _
  | closure =>
      exact .enclosed hmem (Occurrence.isClosure_iff.mpr ht) (hlast _)
        (.andThen (hplain _ (by simp [ht])) Twins.checkArrowBody)
  | call =>
      have hcallee : v.Twins c' o _ (v.visitAmong o (· = .expression) (o.kind = .callExpression) 0
          children) _ := hchildren _ _ fun _ hrole => eq_calls_of_callee hhead hrole
      have harguments : v.Twins c' o _ (v.visitAmong o (· = .argument) false 0 children) _ :=
        hchildren _ _ fun _ hrole => eq_calls_of_argument hrole
      refine .announced hmem (by simp [Occurrence.announcement?, ht]) ?_
        (.andThen hcallee (.andThen harguments (Twins.resolveCall ht)))
      rw [List.append_nil]
      exact nodup_chosenFrom_append o (by simp)
  | propertyAccess =>
      refine .ofPlain hmem (.andThen (hplain _ (by simp [ht])) (Twins.ite (fun _ => .nothing o _) fun h => ?_))
        (hlast _) (by simp [ht])
      exact Twins.checkProperty ht (by rw [← hcallee]; simpa using h)
  | elementAccess =>
      refine .ofPlain hmem (.andThen (hplain _ (by simp [ht])) (.andThen (hplain _ (by simp [ht]))
        (Twins.checkAttribute ht))) ?_ (by simp [ht])
      rw [List.append_nil]
      exact nodup_chosenFrom_append o (by simp)
  | shorthand =>
      refine .ofPlain hmem (.andThen (Twins.checkShorthand ht) (hplain _ (by simp [ht]))) ?_
        (by simp [ht])
      rw [List.nil_append]
      exact hone _
  | identifier => exact .ofPlain hmem (Twins.checkIdentifier ht) List.nodup_nil (by simp [ht])
  | declaration =>
      exact .ofPlain hmem (.andThen (hplain _ (by simp [ht])) (Twins.checkDeclaration ht)) (hlast _)
        (by simp [ht])
  | binary =>
      exact .ofPlain hmem (.andThen (hplain _ (by simp [ht])) (Twins.checkBinary ht)) (hlast _)
        (by simp [ht])
  | «return» =>
      exact .ofPlain hmem (.andThen (hplain _ (by simp [ht])) (Twins.checkReturn ht)) (hlast _)
        (by simp [ht])
  | plain => exact .ofPlain hmem (hplain _ (by simp [ht])) (hone _) (by simp [ht])

variable (v) (c' : Checker ι μ)

mutual

theorem visit_twins (parent : Occurrence) (a : Ancestor) (above : List Ancestor)
    (isCallee : Bool) : ∀ n : Node, ⟨v.file, n, a :: above⟩ ∈ parent.children →
      isCallee = Occurrence.isCallee ⟨v.file, n, a :: above⟩ →
        v.Twins c' parent [⟨v.file, n, a :: above⟩] (v.visit (a :: above) isCallee n)
          ((v.withChecker c').visit (a :: above) isCallee n)
  | .mk info children, hmem, hcallee =>
    visit_twins_of_children a above isCallee info children hmem rfl hcallee
      fun chosen called hcalled =>
        visitAmong_twins ⟨v.file, .mk info children, a :: above⟩ rfl chosen called hcalled 0
          children rfl

theorem visitAmong_twins (o : Occurrence) (hfile : o.file = v.file) (chosen : Role → Bool)
    (called : Bool) (hcalled : ∀ role, chosen role → called = calls o role) :
    ∀ (branch : Nat) (rest : List Node), rest = o.node.children.drop branch →
      v.Twins c' o (chosenAmong o chosen branch rest) (v.visitAmong o chosen called branch rest)
        ((v.withChecker c').visitAmong o chosen called branch rest)
  | _, [], _ => .nothing o _
  | branch, child :: rest, hrest => by
    have hnext := visitAmong_twins o hfile chosen called hcalled (branch + 1) rest (by
      rw [← List.tail_drop, ← hrest, List.tail_cons])
    rw [visitAmong, visitAmong, chosenAmong_cons]
    by_cases hchosen : chosen child.role = true
    · rw [if_pos hchosen, if_pos hchosen, if_pos hchosen]
      have hmem : o.below child branch ∈ o.children := by
        refine Occurrence.mem_children_iff.mpr ⟨child, branch, ?_, rfl⟩
        rw [← List.head?_drop, ← hrest, List.head?_cons]
      have hvisit := visit_twins o ⟨o.node, branch⟩ o.above called child
      rw [← hfile] at hvisit
      exact .andThen (hvisit hmem (hcalled _ hchosen)) hnext
    · rw [if_neg hchosen, if_neg hchosen, if_neg hchosen]
      exact hnext

end

/-- A visit to a child is put together like any walk. -/
theorem visit_deals (parent : Occurrence) (a : Ancestor) (above : List Ancestor) (isCallee : Bool)
    (n : Node) (hmem : ⟨v.file, n, a :: above⟩ ∈ parent.children)
    (hcallee : isCallee = Occurrence.isCallee ⟨v.file, n, a :: above⟩) :
    v.Deals parent [⟨v.file, n, a :: above⟩] (v.visit (a :: above) isCallee n) :=
  (v.visit_twins v.checker parent a above isCallee n hmem hcallee).deals

theorem visitAmong_deals (o : Occurrence) (hfile : o.file = v.file) (chosen : Role → Bool)
    (called : Bool) (hcalled : ∀ role, chosen role → called = calls o role) (branch : Nat)
    (rest : List Node) (hrest : rest = o.node.children.drop branch) :
    v.Deals o (chosenAmong o chosen branch rest) (v.visitAmong o chosen called branch rest) :=
  (v.visitAmong_twins v.checker o hfile chosen called hcalled branch rest hrest).deals

end Visitor

namespace Checker

open Run Session SessionState

variable {ι μ : Type} [DecidableEq ι]

/-- What is needed to visit a file of a program. -/
def visitor (c : Checker ι μ) (file : SourceFile) : Visitor ι μ := ⟨c, file, file.incompatibilities⟩

variable (c : Checker ι μ)

/-- A file is announced before the walk through it begins. -/
theorem visitFile_eq (file : SourceFile) : c.visitFile file =
    c.dispatcher.say ("Checking " ++ file.name) >>= fun _ =>
      (c.visitor file).visitAmong file.rootOccurrence (fun _ => true) false 0 file.root.children := by
  show _ = (if c.verbose then print _ else pure ()) >>= _
  rw [visitFile]
  cases c.verbose <;> rfl

/-- Two checkers check a file by walks of the same shape below its root. -/
theorem visitFile_twins (c' : Checker ι μ) (file : SourceFile) :
    (c.visitor file).Twins c' file.rootOccurrence file.rootOccurrence.children (c.visitFile file)
      (c'.visitFile file) := by
  have hwalk := (c.visitor file).visitAmong_twins c' file.rootOccurrence rfl (fun _ => true) false
    (fun role _ => by simp [Visitor.calls]) 0 file.root.children rfl
  rw [show Visitor.chosenAmong file.rootOccurrence (fun _ => true) 0 file.root.children =
    file.rootOccurrence.children from List.filter_true _] at hwalk
  rw [visitFile_eq, visitFile_eq]
  exact .andThen (.say _) hwalk

/-- Checking a file is a walk below its root. -/
theorem visitFile_deals (file : SourceFile) : (c.visitor file).Deals file.rootOccurrence
    file.rootOccurrence.children (c.visitFile file) :=
  (c.visitFile_twins c file).deals

/-- The outcome of a check follows from the state in which it ends. -/
theorem eq_verdict_of_check {p : Program} {s t : SessionState ι μ} {outcome : Verdict}
    (h : c.check p s = .ok outcome t) : outcome = t.verdict := by
  obtain ⟨_, _, _, h⟩ := bind_eq_ok_iff.mp h
  obtain ⟨_, _, _, h⟩ := bind_eq_ok_iff.mp h
  obtain ⟨_, _, _, h⟩ := bind_eq_ok_iff.mp h
  obtain ⟨_, _, _, h⟩ := bind_eq_ok_iff.mp h
  cases h
  rfl

end Checker

end ExtensibleCheck
