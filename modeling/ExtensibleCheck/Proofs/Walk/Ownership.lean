import ExtensibleCheck.Proofs.Syntax.Owners
import ExtensibleCheck.Proofs.Walk.Shape
import ExtensibleCheck.Session.Check

/-! Which mistakes of the compiler are offered as assignments and returns that do not fit. A mistake
belongs to the innermost function or class around it, and a place is offered if one is reported on it
that belongs to no function or class below it. The place itself is not asked whether it is such a
function: where the body of an arrow is a function, what is reported inside that function is offered
for the arrow as well. -/

namespace ExtensibleCheck

namespace Occurrence

/-- Whether the node is the expression that an arrow function returns. -/
def isArrowBody (n : Occurrence) : Bool :=
  n.kind ≠ .block && n.parent?.any fun arrow =>
    arrow.kind = .arrowFunction && (arrow.child? .body).any (·.id = n.id)

/-- Whether something is stored or returned at the node: a declaration with a value, an assignment, a
return of a value or the expression that an arrow returns. -/
def isSite (n : Occurrence) : Bool :=
  n.isArrowBody || match n.treatment with
    | .declaration => (n.child? .initializer).isSome
    | .binary => (Visitor.assignedValue? n).isSome
    | .return => (n.child? .expression).isSome
    | _ => false

/-- Whether some mistake belongs to the node: it falls on it, and on no function or class from the node
on downward. A function or class that an arrow returns answers for its own start all the same. -/
def OwnsReport (n : Occurrence) : Prop :=
  ∃ position ∈ n.file.incompatibilities, n.node.covers position ∧
    ((∀ d ∈ n.node.preorder, d.kind.isOwner → d.covers position = false) ∨
      n.isArrowBody ∧ n.kind.isOwner ∧ position = n.node.start)

instance (n : Occurrence) : Decidable n.OwnsReport :=
  inferInstanceAs (Decidable (∃ position ∈ _, _ ∧ ((∀ d ∈ _, _ → _) ∨ _)))

/-- Whether some mistake falls on the node, but on no function or class below it. -/
def HoldsReport (n : Occurrence) : Prop :=
  ∃ position ∈ n.file.incompatibilities, n.node.covers position ∧
    ∀ d ∈ n.node.descendants, d.kind.isOwner → d.covers position = false

theorem isArrowBody_of_child? {arrow n : Occurrence} (harrow : arrow.kind = .arrowFunction)
    (hn : arrow.child? .body = some n) (hblock : n.kind ≠ .block) : n.isArrowBody := by
  have hparent : n.parent? = some arrow := by
    obtain ⟨child, branch, -, rfl⟩ := mem_children_iff.mp (mem_children_of_child? hn)
    rfl
  simp [isArrowBody, hparent, harrow, hn, hblock]

/-- Nothing but the expression that an arrow returns can be a site and a function or class at once. -/
theorem isArrowBody_of_isSite {n : Occurrence} (hsite : n.isSite) (howner : n.kind.isOwner) :
    n.isArrowBody := by
  rw [isSite, Bool.or_eq_true] at hsite
  rcases hsite with hbody | hother
  · exact hbody
  · rw [treatment_of_kind fun h => by
      simp [h, Kind.isOwner, Kind.isFunctionLike, Kind.isClassLike] at howner] at hother
    cases hkind : n.kind <;>
      simp [hkind, Kind.treatment, Kind.isOwner, Kind.isFunctionLike, Kind.isClassLike]
        at hother howner

/-- A site that is a function or class owns none of the mistakes on it but the one at its start. -/
theorem ownsReport_iff {n : Occurrence} (hsite : n.isSite) (h : n.HoldsReport) :
    n.OwnsReport ↔ (n.kind.isOwner → (n.node.start : Int) ∈ n.file.incompatibilities) := by
  constructor
  · rintro ⟨position, hmem, hcovers, hfree | ⟨-, -, rfl⟩⟩ howner
    · rw [hfree n.node (Node.mem_preorder_self _) howner] at hcovers
      cases hcovers
    · exact hmem
  · intro hstart
    obtain ⟨position, hmem, hcovers, hbelow⟩ := h
    by_cases howner : n.kind.isOwner = true
    · have hbounds := Node.covers_iff.mp hcovers
      refine ⟨n.node.start, hstart howner, Node.covers_iff.mpr ⟨Int.le_refl _, ?_⟩,
        Or.inr ⟨isArrowBody_of_isSite hsite howner, howner, rfl⟩⟩
      omega
    · refine ⟨position, hmem, hcovers, Or.inl fun d hd hd' => ?_⟩
      rw [Node.preorder_eq] at hd
      rcases List.mem_cons.mp hd with rfl | hd
      · exact absurd hd' howner
      · exact hbelow d hd hd'

end Occurrence

/-- The place that an assignment or a return is offered for because its types do not fit. -/
def HookCall.incompatibleSite? : HookCall Occurrence CheckedType → Option Occurrence
  | .ask (.incompatibleAssignment _ _ site) | .ask (.incompatibleReturn site _) => some site
  | _ => none

/-- An announcement offers nothing. -/
theorem HookCall.incompatibleSite?_of_announced? {call : HookCall Occurrence CheckedType}
    {o : Occurrence} (h : call.announced? = some o) : call.incompatibleSite? = none := by
  cases call with
  | ask question => cases question <;> first | rfl | cases h
  | _ => rfl

def Event.incompatibleSite? {ι : Type} : Event ι → Option Occurrence
  | raised call _ => call.incompatibleSite?
  | _ => none

/-- What is offered because its types do not fit is a site in one of the files, and something is
reported within it. -/
def Event.OffersSite {ι : Type} (files : List SourceFile) (e : Event ι) : Prop :=
  ∀ n ∈ e.incompatibleSite?,
    n.file ∈ files ∧ n.isSite ∧ n.node.reportsWithin n.file.incompatibilities

theorem Event.offersSite_of_quiet {ι : Type} {files : List SourceFile} {e : Event ι}
    (h : e.isTurn = false) : e.OffersSite files := by
  intro n hn
  cases e with
  | raised => cases h
  | _ => cases hn

open Run Session

namespace Visitor

variable {ι μ : Type} [DecidableEq ι] {v : Visitor ι μ} {o : Occurrence}

omit [DecidableEq ι] in
theorem Uses.incompatibleSite? {call : HookCall Occurrence CheckedType} (h : v.Uses o call) :
    ∀ n ∈ call.incompatibleSite?,
      (n = o ∨ n ∈ o.children) ∧ n.isSite ∧ n.node.reportsWithin v.incompatible := by
  intro n hn
  cases h with
  | declared ht hvalue hwithin =>
      cases hn
      exact ⟨Or.inl rfl, by simp [Occurrence.isSite, ht, hvalue], hwithin⟩
  | assigned ht hvalue hwithin =>
      cases hn
      exact ⟨Or.inl rfl, by simp [Occurrence.isSite, ht, hvalue], hwithin⟩
  | returned ht hvalue hwithin =>
      cases hn
      exact ⟨Or.inl rfl, by simp [Occurrence.isSite, ht, hvalue], hwithin⟩
  | arrowBody harrow hbody hblock hwithin =>
      cases hn
      have harrowBody := Occurrence.isArrowBody_of_child? harrow hbody hblock
      refine ⟨Or.inr (Occurrence.mem_children_of_child? hbody), ?_, hwithin⟩
      rw [Occurrence.isSite, harrowBody, Bool.true_or]
  | _ => cases hn

/-- A walk through a file offers only sites of that file within which something is reported. -/
theorem Walk.offersSites {files : List SourceFile} {children : List Occurrence}
    {m : Session ι μ Unit} (h : v.Walk o children m) (hfile : o.file ∈ files)
    (hpositions : v.incompatible = o.file.incompatibilities) :
    Writes (Event.OffersSite files) m := by
  have hnone {call : HookCall Occurrence CheckedType} (hcall : call.incompatibleSite? = none) :
      Checker.EntersAs (ι := ι) (Event.OffersSite files) call := by
    refine ⟨fun _ n hn => ?_, fun _ n hn => nomatch hn⟩
    exact nomatch hcall.symm.trans hn
  refine h.writes (Q := fun o => o.file ∈ files ∧ v.incompatible = o.file.incompatibilities)
    (fun _ => Event.offersSite_of_quiet) ?child ?use ?announced ?brought ⟨hfile, hpositions⟩
  case child =>
    rintro o child ho hchild -
    rwa [Occurrence.file_of_mem_children hchild]
  case use =>
    rintro o call ⟨hfile, hpositions⟩ huse
    refine ⟨fun _ n hn => ?_, fun _ n hn => nomatch hn⟩
    obtain ⟨hplace, hsite, hwithin⟩ := huse.incompatibleSite? n hn
    have hsame : n.file = o.file := by
      rcases hplace with rfl | hchild
      · rfl
      · exact Occurrence.file_of_mem_children hchild
    rw [hpositions, ← hsame] at hwithin
    exact ⟨hsame ▸ hfile, hsite, hwithin⟩
  case announced =>
    rintro o child before after - - hannounced
    obtain ⟨-, -, hbefore, -⟩ := Occurrence.announcement?_spec hannounced
    exact ⟨hnone (HookCall.incompatibleSite?_of_announced? hbefore), hnone rfl⟩
  case brought =>
    intro o child _ _ _ extensions n hn
    cases hn

end Visitor

namespace Checker

variable {ι μ : Type} [DecidableEq ι] (c : Checker ι μ)

theorem check_offersSites (p : Program) : Writes (Event.OffersSite p.files) (c.check p) := by
  have hends (notice : Notice Occurrence CheckedType) :
      Writes (Event.OffersSite p.files) (c.raise (.notify notice)) :=
    writes_of_keeps (c.writes_raise (fun _ => Event.offersSite_of_quiet)
      ⟨(fun _ n hn => nomatch hn), fun _ n hn => nomatch hn⟩)
  have hfiles : Writes (Event.OffersSite p.files) (p.files.forM c.visitFile) :=
    Keeps.forM fun file hfile => (c.visitFile_walk file).offersSites hfile rfl
  rw [check]
  refine (c.quiet_start.writes fun _ => Event.offersSite_of_quiet).bind fun _ => ?_
  refine (hends .setup).bind fun _ => hfiles.bind fun _ => ?_
  exact (hends .finish).bind fun _ => Keeps.get.bind fun _ => Keeps.pure _

/-- Whatever is offered because its types do not fit is a site within which a mistake is reported. Where
nodes lie within their parents, the mistake belongs to no function or class below the site, and so it
belongs to the site itself, unless the site is a function or class that an arrow returns: then this is
so only if the very start of the site is reported. -/
theorem check_offers_owned (p : Program) (memory : μ) :
    ∀ e ∈ ((c.check p).after { memory }).journal.toList, ∀ n ∈ e.incompatibleSite?,
      n.file ∈ p.files ∧ n.isSite ∧ n.node.reportsWithin n.file.incompatibilities ∧
        (n.node.WellNested → n.HoldsReport ∧
          (n.OwnsReport ↔ (n.kind.isOwner → (n.node.start : Int) ∈ n.file.incompatibilities))) := by
  obtain ⟨events, hjournal, hoffers⟩ := (c.check_offersSites p).state { memory }
  intro e he n hn
  rw [hjournal] at he
  obtain ⟨hfile, hsite, hwithin⟩ := hoffers e he n hn
  refine ⟨hfile, hsite, hwithin, fun hnested => ?_⟩
  have hholds : n.HoldsReport := (Node.reportsWithin_iff hnested _).mp hwithin
  exact ⟨hholds, Occurrence.ownsReport_iff hsite hholds⟩

end Checker

/-- An arrow that returns another one, which is to return a number but returns a string:
`() => (): number => label`. -/
def curriedArrow : SourceFile :=
  let label : Node := .mk { role := .body, kind := .identifier, start := 33, stop := 38 } []
  let inner : Node := .mk { role := .body, kind := .arrowFunction, start := 19, stop := 38 } [label]
  let outer : Node :=
    .mk { role := .initializer, kind := .arrowFunction, start := 13, stop := 38 } [inner]
  let root : Node :=
    .mk { role := .other "", kind := .sourceFile, start := 0, stop := 39 } [outer]
  ⟨0, "curried.ts", "const make = () => (): number => label;", root, [⟨2322, some 0, some 33⟩]⟩

/-- A check without extensions. -/
def unextended : Checker Unit Unit where
  behaviour _ call := Behaviour.neutral call
  label _ := .anonymous
  limit := 0

/-- The return of the inner arrow is offered, and it owns the mistake. -/
theorem unextended_returnedLabel :
    ∃ e ∈ ((unextended.check ⟨[curriedArrow]⟩).after { memory := () }).journal.toList,
      ∃ n ∈ e.incompatibleSite?, n.node.start = 33 ∧ n.node.WellNested ∧ n.OwnsReport := by
  have hoffered : ∃ e ∈ ((unextended.check ⟨[curriedArrow]⟩).after { memory := () }).journal.toList,
      ∃ n ∈ e.incompatibleSite?, n.node.start = 33 ∧ n.node.WellNested ∧ ¬n.kind.isOwner := by
    decide +kernel
  obtain ⟨e, he, n, hn, hstart, hnested, howner⟩ := hoffered
  obtain ⟨-, -, -, howned⟩ := unextended.check_offers_owned ⟨[curriedArrow]⟩ () e he n hn
  exact ⟨e, he, n, hn, hstart, hnested, (howned hnested).2.mpr fun h => absurd h howner⟩

/-- The mistake in the inner arrow is offered twice, and the outer arrow's return does not own it. -/
theorem unextended_curriedArrow :
    let sites := ((unextended.check ⟨[curriedArrow]⟩).after { memory := () }).journal.toList.filterMap
      Event.incompatibleSite?
    sites.map (·.node.start) = [33, 19] ∧ ∃ n ∈ sites, n.node.WellNested ∧ ¬ n.OwnsReport := by
  decide +kernel

end ExtensibleCheck
