import ExtensibleCheck.Proofs.Syntax.Order
import ExtensibleCheck.Proofs.Walk.Coverage
import ExtensibleCheck.Proofs.Walk.Ownership

/-! Which sites are offered because their types do not fit. A site is offered whenever a mistake falls
anywhere on it but on no function or class below it. An assignment is neither, so a mistake at its target
is a mistake of every site around it too, up to the next function or class, and all of them are offered
and reported. -/

namespace ExtensibleCheck

open Occurrence

namespace Occurrence

/-- A node stands below another, with no function or class on the way down to it. -/
inductive Encloses : Occurrence → Occurrence → Prop
  | child {n m} : m ∈ n.children → m.kind.isOwner = false → Encloses n m
  | step {n c m} : c ∈ n.children → c.kind.isOwner = false → Encloses c m → Encloses n m

variable {o n m : Occurrence} {position : Int}

/-- What a node holds is held by all nodes that enclose it. -/
theorem Encloses.holds (h : n.Encloses m) (hnested : n.node.WellNested)
    (hapart : n.node.SiblingsApart) (hholds : m.node.Holds position) : n.node.Holds position := by
  induction h with
  | child hm hother => exact hholds.of_mem_children hnested hapart (mem_children_node hm) hother
  | @step n c m hc hother _ ih =>
      have hchild := mem_children_node hc
      have hbelow := ih (hnested.of_mem_children hchild) (hapart.of_mem_children hchild) hholds
      exact hbelow.of_mem_children hnested hapart hchild hother

/-- What children inherit from their parents is true of all that is enclosed. -/
theorem Encloses.inherits {P : Occurrence → Prop} (h : n.Encloses m)
    (hP : ∀ {o c : Occurrence}, c ∈ o.children → P o → P c) (hn : P n) : P m := by
  induction h with
  | child hm => exact hP hm hn
  | step hc _ _ ih => exact ih (hP hc hn)

theorem hasReport_iff (h : n.node.WellNested) :
    n.hasReport ↔ ∃ position ∈ n.file.incompatibilities, n.node.Holds position :=
  Node.reportsWithin_iff h _

end Occurrence

section

variable {ι : Type} {o n : Occurrence} {events journal : List (Event ι)}

/-- A place is offered because its types do not fit, and reported if nobody takes care of it. -/
def Disputed (journal : List (Event ι)) (n : Occurrence) : Prop :=
  ∃ past offer rest question code message, journal = past ++ offer ++ rest ∧
    HookCall.incompatibleSite? (.ask question) = some n ∧ Offered question code message n offer

theorem Disputed.around (h : Disputed events n) (past rest : List (Event ι)) :
    Disputed (past ++ events ++ rest) n := by
  obtain ⟨before, offer, after, question, code, message, rfl, hsite, hoffered⟩ := h
  exact ⟨past ++ before, offer, after ++ rest, question, code, message, by simp, hsite, hoffered⟩

/-- Only the site that is checked at a node can be a mistake there, and only if something is reported
within it. -/
theorem Mistaken.checkedSite? {question : Question Occurrence CheckedType} (h : Mistaken o question)
    (hn : HookCall.incompatibleSite? (.ask question) = some n) :
    o.checkedSite? = some n ∧ n.hasReport := by
  cases h with
  | property | «attribute» => cases hn
  | assignment _ hsite hreport | «return» _ hsite hreport =>
      cases hn
      exact ⟨hsite, hreport⟩
  | arrowBody harrow hbody hblock hreport =>
      cases hn
      refine ⟨?_, hreport⟩
      rw [Occurrence.checkedSite?, treatment_of_kind (by simp [harrow]), harrow]
      simp [Kind.treatment, hbody, hblock]

/-- The site that is checked at a node is what the matter there is about. -/
theorem exists_matter_of_checkedSite? (h : o.checkedSite? = some n) : ∃ matter, o.matter? = some matter ∧
    matter.isAccess = false ∧ matter.arises o = n.hasReport ∧
      ∀ type, HookCall.incompatibleSite? (.ask (matter.question o type)) = some n := by
  rw [Occurrence.checkedSite?] at h
  rw [Occurrence.matter?]
  cases ht : o.treatment with
  | declaration =>
      rw [ht] at h
      obtain ⟨value, hvalue, rfl⟩ := Option.map_eq_some_iff.mp h
      exact ⟨_, by rw [hvalue]; rfl, rfl, rfl, fun _ => rfl⟩
  | binary =>
      rw [ht] at h
      obtain ⟨value, hvalue, h⟩ := Option.bind_eq_some_iff.mp h
      obtain ⟨left, hleft, rfl⟩ := Option.map_eq_some_iff.mp h
      exact ⟨_, by rw [hvalue, hleft]; rfl, rfl, rfl, fun _ => rfl⟩
  | «return» =>
      rw [ht] at h
      obtain ⟨value, hvalue, rfl⟩ := Option.map_eq_some_iff.mp h
      exact ⟨_, by rw [hvalue]; rfl, rfl, rfl, fun _ => rfl⟩
  | closure =>
      rw [ht] at h
      exact ⟨_, congrArg (Option.map _) h, rfl, rfl, fun _ => rfl⟩
  | _ => simp [ht] at h

theorem Inquiry.disputed {matter : Matter} (h : Inquiry o matter events) (haccess : matter.isAccess = false)
    (harises : matter.arises o)
    (hquestion : ∀ type, HookCall.incompatibleSite? (.ask (matter.question o type)) = some n) :
    Disputed events n := by
  cases h with
  | spared hspared =>
      rw [harises] at hspared
      cases hspared
  | vouched _ haccess' =>
      rw [haccess] at haccess'
      cases haccess'
  | settled _ _ hpasses =>
      cases matter with
      | property | element => cases haccess
      | assigned | returned => cases hpasses
  | @offered type code place rest _ hcode hoffered =>
      have hn := hquestion type
      have hplace : place = n := by
        generalize matter.question o type = question at hn hcode
        cases question <;> cases hn <;> cases hcode <;> rfl
      rw [hplace] at hoffered
      exact ⟨matter.probing o ++ [.lookedUp matter.subject type], rest, [], _, code, _, by simp, hn,
        hoffered⟩

theorem Piece.checkedSite? (h : Piece journal o events) {call : HookCall Occurrence CheckedType}
    (hcall : call ∈ raisedIn events) (hn : call.incompatibleSite? = some n) :
    o.isVariable = false ∧ o.checkedSite? = some n ∧ n.hasReport := by
  cases h with
  | «variable» _ hcheck =>
      cases hcheck.eq_of_raised hcall
      cases hn
  | opening hopening =>
      obtain ⟨before, after, hannounced, rfl⟩ := hopening.eq_of_raised hcall
      have hbefore := (announcement?_spec hannounced).2.2.1
      rw [HookCall.incompatibleSite?_of_announced? hbefore] at hn
      cases hn
  | closing hvariable _ hclosing =>
      rcases hclosing.raised.cases hcall with
        ⟨question, rfl, hmistaken⟩ | ⟨-, hresolves⟩ | ⟨_, _, _, rfl⟩
      · exact ⟨hvariable, hmistaken.checkedSite? hn⟩
      · cases hresolves <;> cases hn
      · cases hn

variable {p : Program}

/-- Whether the walk checks a site for types that do not fit. -/
def Program.Checks (p : Program) (journal : List (Event ι)) (n : Occurrence) : Prop :=
  ∃ o, p.Reaches journal o ∧ o.isVariable = false ∧ o.checkedSite? = some n

theorem Course.disputed (h : Course p events) (hchecks : p.Checks events n) (hreport : n.hasReport) :
    Disputed events n := by
  obtain ⟨o, hreaches, hvariable, hsite⟩ := hchecks
  obtain ⟨matter, hmatter, haccess, harises, hquestion⟩ := exists_matter_of_checkedSite? hsite
  obtain ⟨past, passage, rest, rfl, hpassage⟩ := h.exists_passage hreaches
  obtain ⟨opening, inner, own, rfl, -, -, hinquiry⟩ := hpassage.exists_inquiry hvariable hmatter
  have hdisputed : Disputed own n := hinquiry.disputed haccess (harises.trans hreport) hquestion
  simpa using hdisputed.around (past ++ opening ++ inner) rest

theorem Course.checks_of_offered (h : Course p events) (hnumbers : (p.files.map (·.number)).Nodup)
    {e : Event ι} (he : e ∈ events) (hn : n ∈ e.incompatibleSite?) :
    p.Checks events n ∧ n.hasReport := by
  obtain ⟨past, rest, hsplit⟩ := List.append_of_mem he
  cases e with
  | raised call registry =>
      have hconsistent := h.consistent hnumbers fun _ he => he
      rcases h.exists_piece hconsistent hsplit with
        hambient | ⟨o, before, first, last, after, -, -, hreaches, hpiece⟩
      · cases call with
        | notify notice => cases hn
        | _ => cases hambient
      · have hcall : call ∈ raisedIn (first ++ .raised call registry :: last) :=
          mem_raisedIn.mpr ⟨registry, List.mem_append_right _ List.mem_cons_self⟩
        obtain ⟨hvariable, hsite, hreport⟩ := hpiece.checkedSite? hcall hn
        exact ⟨⟨o, hreaches, hvariable, hsite⟩, hreport⟩
  | _ => cases hn

end

open Run Session SessionState

namespace Checker

variable {ι μ : Type} [DecidableEq ι] (c : Checker ι μ)

/-- In a check that is not aborted, exactly those sites that the walk checks are offered within which a
mistake is reported, and each of them is reported if nobody takes care of it. One mistake is enough for
several sites. Where nodes lie within their parents and beside each other, a mistake at the target of an
assignment, if no function or class begins there, makes the assignment be offered and all checked sites
that enclose it as well. -/
theorem check_disputes_enclosing (p : Program) (memory : μ) (h : (c.check p).finishes { memory })
    (hnumbers : (p.files.map (·.number)).Nodup) :
    let journal := ((c.check p).after { memory }).journal.toList
    (∀ n, p.Checks journal n → n.hasReport → Disputed journal n) ∧
    (∀ e ∈ journal, ∀ n ∈ e.incompatibleSite?, p.Checks journal n ∧ n.hasReport) ∧
    ∀ n m target : Occurrence, n.node.WellNested → n.node.SiblingsApart → n.Encloses m →
      m.child? .left = some target → target.kind.isOwner = false →
      target.node.Holds target.node.start → (target.node.start : Int) ∈ n.file.incompatibilities →
        (p.Checks journal n → Disputed journal n) ∧ (p.Checks journal m → Disputed journal m) := by
  obtain ⟨rest, hcourse, hrest⟩ := c.check_course p memory
  rw [hrest h, List.append_nil] at hcourse
  refine ⟨fun n => hcourse.disputed, fun e he n hn => hcourse.checks_of_offered hnumbers he hn, ?_⟩
  intro n m target hnested hapart hencloses htarget hother hstart hreported
  have hnested' : m.node.WellNested := hencloses.inherits (P := (·.node.WellNested))
    (fun hc h => h.of_mem_children (mem_children_node hc)) hnested
  have hapart' : m.node.SiblingsApart := hencloses.inherits (P := (·.node.SiblingsApart))
    (fun hc h => h.of_mem_children (mem_children_node hc)) hapart
  have hfile : m.file = n.file := hencloses.inherits (P := (·.file = n.file))
    (fun hc h => (file_of_mem_children hc).trans h) rfl
  have hwithin : m.Encloses target := .child (mem_children_of_child? htarget) hother
  have hholds : m.node.Holds target.node.start := hwithin.holds hnested' hapart' hstart
  have hreport : n.hasReport :=
    (hasReport_iff hnested).mpr ⟨_, hreported, hencloses.holds hnested hapart hholds⟩
  have hreport' : m.hasReport := (hasReport_iff hnested').mpr ⟨_, hfile ▸ hreported, hholds⟩
  exact ⟨fun hchecks => hcourse.disputed hchecks hreport,
    fun hchecks => hcourse.disputed hchecks hreport'⟩

end Checker

/-- The assignment `b = c` in `a = b = c`. -/
def innerAssignment : Node :=
  .mk { role := .right, kind := .binaryExpression, start := 4, stop := 9 }
    [.mk { role := .left, kind := .identifier, start := 4, stop := 5 } [],
      .mk { role := .operator, kind := .assignment .plain, start := 6, stop := 7 } [],
      .mk { role := .right, kind := .identifier, start := 8, stop := 9 } []]

/-- The assignment `a = b = c`. -/
def outerAssignment : Node :=
  .mk { role := .expression, kind := .binaryExpression, start := 0, stop := 9 }
    [.mk { role := .left, kind := .identifier, start := 0, stop := 1 } [],
      .mk { role := .operator, kind := .assignment .plain, start := 2, stop := 3 } [],
      innerAssignment]

/-- A value that is stored in one variable after the other, of which the inner one cannot take it. -/
def chainedAssignment : SourceFile :=
  let root : Node :=
    .mk { role := .other "", kind := .sourceFile, start := 0, stop := 10 } [outerAssignment]
  ⟨0, "chained.ts", "a = b = c;", root, [⟨2322, some 0, some 4⟩]⟩

/-- The mistake at the inner target makes a site of the outer assignment as well. -/
theorem check_disputes_chainedAssignment :
    let journal := ((unextended.check ⟨[chainedAssignment]⟩).after { memory := () }).journal.toList
    ∃ outer inner : Occurrence, outer.node = outerAssignment ∧ inner.node = innerAssignment ∧
      outer.Encloses inner ∧ Disputed journal outer ∧ Disputed journal inner := by
  have hfinishes : (unextended.check ⟨[chainedAssignment]⟩).finishes { memory := () } := by
    decide +kernel
  obtain ⟨-, -, henclosing⟩ :=
    unextended.check_disputes_enclosing ⟨[chainedAssignment]⟩ () hfinishes (by decide)
  generalize ((unextended.check ⟨[chainedAssignment]⟩).after { memory := () }).journal.toList = journal
    at henclosing ⊢
  let outer : Occurrence := chainedAssignment.rootOccurrence.below outerAssignment 0
  let inner : Occurrence := outer.below innerAssignment 2
  have hchild : inner ∈ outer.children := List.mem_of_getElem? (i := 2) rfl
  have hencloses : outer.Encloses inner := .child hchild rfl
  have hreaches : Program.Reaches ⟨[chainedAssignment]⟩ journal outer :=
    ⟨outer, List.mem_cons_self, .here _⟩
  have hreaches' : Program.Reaches ⟨[chainedAssignment]⟩ journal inner := by
    refine ⟨outer, List.mem_cons_self, .step hchild rfl ?_ (.here _)⟩
    rintro ⟨_, _, hannounced, -⟩
    cases hannounced
  obtain ⟨houter, hinner⟩ := henclosing outer inner _ (by decide) (by decide)
    hencloses rfl rfl (by decide) (by decide)
  exact ⟨_, _, rfl, rfl, hencloses, houter ⟨_, hreaches, rfl, rfl⟩, hinner ⟨_, hreaches', rfl, rfl⟩⟩

/-- One mistake is offered twice and reported twice. -/
theorem unextended_chainedAssignment :
    let s := (unextended.check ⟨[chainedAssignment]⟩).after { memory := () }
    chainedAssignment.incompatibilities = [(innerAssignment.start : Int)] ∧
      (s.journal.toList.filterMap Event.incompatibleSite?).map (·.node.start) =
        [innerAssignment.start, outerAssignment.start] ∧
      s.verdict.findings.diagnostics.map (·.code) =
        [.incompatibleAssignment, .incompatibleAssignment] := by
  decide +kernel

end ExtensibleCheck
