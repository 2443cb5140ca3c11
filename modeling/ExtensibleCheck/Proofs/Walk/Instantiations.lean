import ExtensibleCheck.Proofs.Walk.Inquiries
import ExtensibleCheck.Proofs.Walk.Ownership

/-! Expressions with type arguments. By their kind they are types, and the walk goes on only into those that
name the base of a class. In any other place such an expression is a value with its type parameters filled
in, and whatever stands in it is passed over: no hook, no selection and no report is about it. -/

namespace ExtensibleCheck

open Occurrence

/-- Whether the node fills in the type parameters of a value, rather than naming the base of a class. -/
def Occurrence.isInstantiation (o : Occurrence) : Bool :=
  o.kind = .expressionWithTypeArguments && !o.isClassBase

/-- The node for which the walk makes an entry, unless it is for a report. -/
def Event.subject? {ι : Type} : Event ι → Option Occurrence
  | raised use _ | settled use _ => use.node?
  | brought closure _ => some closure
  | probed o _ => some o
  | selected call _ => some call
  | _ => none

theorem Event.subject?_of_isDeed {ι : Type} (e : Event ι) (h : e.isDeed) : e.subject? = none := by
  cases e <;> first | rfl | cases h

theorem Event.subject?_of_isAmbient {ι : Type} (e : Event ι) (h : e.isAmbient) : e.subject? = none := by
  cases e with
  | raised use | settled use =>
      cases use with
      | notify notice => cases notice <;> first | rfl | cases h
      | _ => cases h
  | _ => exact subject?_of_isDeed _ h

theorem isInstantiation_of_isEntered {o : Occurrence} (h : o.isEntered) : o.isInstantiation = false := by
  simp only [isEntered, Bool.and_eq_true, Bool.or_eq_true, Bool.not_eq_true'] at h
  rcases h.1.1.1 with hbase | hother
  · rw [isInstantiation, hbase]
    simp
  · rw [isInstantiation]
    cases hkind : o.kind with
    | expressionWithTypeArguments => simp [hkind, Kind.isTypeNode] at hother
    | _ => simp

/-- The base of a class is entered, and leads to what it is written with. -/
theorem leadsTo_of_isClassBase {a e : Occurrence} (hbase : a.isClassBase)
    (he : e ∈ a.withRole .expression) : a.leadsTo e := by
  have hclause : a.isShorthandName = false := by
    obtain ⟨file, node, above⟩ := a
    rcases above with _ | ⟨clause, _ | ⟨owner, above⟩⟩
    · rfl
    · simp [isClassBase] at hbase
    · have hkind : clause.node.kind = .heritageClause := by
        simp only [isClassBase, Bool.and_eq_true, decide_eq_true_eq] at hbase
        exact hbase.2.1.1
      simp [isShorthandName, ancestors, parent?, lineage, lineageOf, kind, hkind]
  have hkind : a.kind = .expressionWithTypeArguments := by
    simpa using (Bool.and_eq_true_iff.mp hbase).1
  have hvariable : a.isVariable = false := by simp [isVariable, hclause, hkind]
  have hentered : e ∈ a.entered := by
    rw [entered, treatment, if_pos hbase]
    exact he
  exact ((mem_entered_iff hvariable).mp hentered).2

section

variable {ι : Type} {events journal : List (Event ι)} {o n : Occurrence}

/-- The nodes for which entries are made, in order. -/
def subjectsIn (events : List (Event ι)) : List Occurrence := events.filterMap Event.subject?

theorem subjectsIn_append (events rest : List (Event ι)) :
    subjectsIn (events ++ rest) = subjectsIn events ++ subjectsIn rest :=
  List.filterMap_append

theorem Exchange.subject {use : HookCall Occurrence CheckedType} {answer : use.Answer}
    (h : Exchange use answer events) (hn : n ∈ subjectsIn events) : use.node? = some n := by
  obtain ⟨registry, hmap⟩ := h.filterMap Event.subject?_of_isDeed
  rw [subjectsIn, hmap] at hn
  rcases List.mem_append.mp hn with hn | hn <;> exact Option.mem_toList.mp hn

theorem Offered.subject {question : Question Occurrence CheckedType} {code : Code} {message : String}
    {place : Occurrence} (h : Offered question code message place events) (hn : n ∈ subjectsIn events) :
    n = question.node := by
  have hasked {answer : Bool} {asked : List (Event ι)} (h : Exchange (.ask question) answer asked)
      (hn : n ∈ subjectsIn asked) : n = question.node := (Option.some.inj (h.subject hn)).symm
  cases h with
  | handled h => exact hasked h hn
  | unhandled h =>
      rw [subjectsIn_append] at hn
      exact hasked h ((List.mem_append.mp hn).resolve_right List.not_mem_nil)

theorem VariableCheck.subject (h : VariableCheck o events) (hn : n ∈ subjectsIn events) : n = o := by
  cases h with
  | unread => exact absurd hn List.not_mem_nil
  | known => exact List.mem_singleton.mp hn
  | unknown _ _ hoffered =>
      rcases List.mem_cons.mp hn with rfl | hn
      · rfl
      · exact hoffered.subject hn

/-- What is gone into at a node is about it, or about the body that an arrow function returns. -/
theorem Inquiry.subject {matter : Matter} (h : Inquiry o matter events) (hmatter : o.matter? = some matter)
    (hn : n ∈ subjectsIn events) : n = o ∨ n ∈ o.children ∧ o.kind = .arrowFunction := by
  have hprobing (hn : n ∈ subjectsIn (matter.probing (ι := ι) o)) : n = o := by
    rw [Matter.probing] at hn
    split at hn
    · exact List.mem_singleton.mp hn
    · exact absurd hn List.not_mem_nil
  have hlookUp (type : CheckedType) (rest : List (Event ι)) :
      subjectsIn (.lookedUp matter.subject type :: rest) = subjectsIn rest := rfl
  cases h with
  | spared => exact absurd hn List.not_mem_nil
  | vouched => exact Or.inl (List.mem_singleton.mp hn)
  | settled =>
      rw [subjectsIn_append, hlookUp] at hn
      exact Or.inl (hprobing ((List.mem_append.mp hn).resolve_right List.not_mem_nil))
  | offered _ _ hoffered =>
      rw [subjectsIn_append, hlookUp] at hn
      rcases List.mem_append.mp hn with hn | hn
      · exact Or.inl (hprobing hn)
      · rw [hoffered.subject hn]
        cases concerns_of_matter? hmatter with
        | arrowBody _ hkind hbody _ => exact Or.inr ⟨mem_children_of_child? hbody, hkind⟩
        | _ => exact Or.inl rfl

theorem Selecting.subject {target : Candidate CheckedType} (h : Selecting o target events)
    (hn : n ∈ subjectsIn events) : n = o := by
  obtain ⟨h⟩ := h
  rcases List.mem_cons.mp hn with rfl | hn
  · rfl
  · exact (Option.some.inj (h.subject hn)).symm

theorem Resolution.subject (h : Resolution o events) (hn : n ∈ subjectsIn events) : n = o := by
  cases h with
  | compiled _ h =>
      obtain rfl | ⟨target, h⟩ := h
      · exact absurd hn List.not_mem_nil
      · exact h.subject hn
  | unchecked => exact absurd hn List.not_mem_nil
  | supplied _ _ _ _ hcontributing hnarrowing hchoosing =>
      rw [subjectsIn, filterMap_supplied Event.subject?_of_isDeed] at hn
      rcases List.mem_append.mp hn with hn | hn
      · rcases List.mem_append.mp hn with hn | hn
        · exact (Option.some.inj (hcontributing.subject hn)).symm
        · cases hnarrowing with
          | several _ h => exact (Option.some.inj (h.subject hn)).symm
          | few => exact absurd hn List.not_mem_nil
      · cases hchoosing with
        | none | many => exact absurd hn List.not_mem_nil
        | one h => exact h.subject hn

theorem Opening.subject {enters : Bool} (h : Opening o enters events) (hn : n ∈ subjectsIn events) :
    n = o := by
  cases h with
  | plain => exact absurd hn List.not_mem_nil
  | closure _ hduring =>
      rw [subjectsIn_append, subjectsIn, filterMap_deeds Event.subject?_of_isDeed hduring] at hn
      exact List.mem_singleton.mp hn
  | announced hannounced hasked =>
      rw [← (announcement?_spec hannounced).1]
      exact (Option.some.inj (hasked.subject hn)).symm

theorem Closing.subject {enters : Bool} (h : Closing o enters events) (hn : n ∈ subjectsIn events) :
    n = o ∨ n ∈ o.children ∧ o.kind = .arrowFunction := by
  have hleave {before : Question Occurrence CheckedType} {after : Notice Occurrence CheckedType}
      {told : List (Event ι)} (hannounced : o.announcement? = some (before, after))
      (h : Exchange (.notify after) () told) (hn : n ∈ subjectsIn told) : n = o :=
    Option.some.inj ((h.subject hn).symm.trans (announcement?_spec hannounced).2.1)
  cases h with
  | plain _ hremark =>
      cases hremark with
      | nothing => exact absurd hn List.not_mem_nil
      | inquiry hmatter hinquiry => exact hinquiry.subject hmatter hn
  | announced hannounced hown htold =>
      rw [subjectsIn_append] at hn
      rcases List.mem_append.mp hn with hn | hn
      · split at hown
        · exact Or.inl (hown.subject hn)
        · rw [hown] at hn
          exact absurd hn List.not_mem_nil
      · exact Or.inl (hleave hannounced htold hn)
  | passed hannounced htold => exact Or.inl (hleave hannounced htold hn)

/-- Every entry that is made while the walk is at a node is about that node, or about what an arrow
function returns. -/
theorem Piece.subject (h : Piece journal o events) (hn : n ∈ subjectsIn events) :
    n = o ∨ n ∈ o.children ∧ o.kind = .arrowFunction := by
  cases h with
  | «variable» _ hcheck => exact Or.inl (hcheck.subject hn)
  | opening hopening => exact Or.inl (hopening.subject hn)
  | closing _ _ hclosing => exact hclosing.subject hn

theorem Program.Reaches.not_instantiation {p : Program} (h : p.Reaches journal n) {a : Occurrence}
    (ha : a ∈ n.ancestors) : a.isInstantiation = false :=
  isInstantiation_of_isEntered (h.ancestors ha).1

/-- No entry is made for anything within an instantiation. -/
theorem Course.not_instantiation {p : Program} {further : List (Event ι)} (h : Course p (events ++ further))
    {e : Event ι} (he : e ∈ events) (hn : e.subject? = some n) {a : Occurrence} (ha : a ∈ n.ancestors) :
    a.isInstantiation = false := by
  obtain ⟨past, rest, hsplit⟩ := List.append_of_mem (List.mem_append_left further he)
  rcases h.exists_piece consistent_nil hsplit with
    hambient | ⟨o, _, first, last, _, -, -, hreaches, hpiece⟩
  · rw [e.subject?_of_isAmbient hambient] at hn
    cases hn
  have hmem : n ∈ subjectsIn (first ++ e :: last) :=
    List.mem_filterMap.mpr ⟨e, List.mem_append_right first List.mem_cons_self, hn⟩
  obtain rfl | ⟨hchild, hkind⟩ := hpiece.subject hmem
  · exact hreaches.not_instantiation ha
  · rw [ancestors_of_mem_children hchild] at ha
    rcases eq_or_mem_ancestors ha with rfl | ha
    · simp [isInstantiation, hkind]
    · exact hreaches.not_instantiation ha

end

open Run Session SessionState

namespace Checker

variable {ι μ : Type} [DecidableEq ι] (c : Checker ι μ)

/-- Whatever the program, the extensions and their answers, and however the check ends. Of the expressions
with type arguments that the walk comes to, it goes on into those that name the base of a class, and into no
other one. So no hook is used for anything within an instantiation, no closure in it brings extensions along,
no method is selected for a call in it, and nothing that is reported, other than by extensions, is about a
node in it. -/
theorem check_passes_over_instantiations (p : Program) (memory : μ) :
    let s := (c.check p).after { memory }
    let journal := s.journal.toList
    (∀ o e, p.Reaches journal o → o.kind = .expressionWithTypeArguments → e ∈ o.withRole .expression →
      (p.Reaches journal e ↔ o.isClassBase)) ∧
    (∀ e ∈ journal, ∀ n, e.subject? = some n → ∀ a ∈ n.ancestors, a.isInstantiation = false) ∧
    (∀ id target, s.targets.get? id = some target → ∃ call : Occurrence, call.id = id ∧
      ∀ a ∈ call.ancestors, a.isInstantiation = false) ∧
    ∀ past d rest, journal = past ++ .reported d :: rest → d.code ≠ .extensionError →
      ∃ n before stretch, past = before ++ stretch ∧ Complaint (typeIn before) n stretch d ∧
        ∀ a ∈ n.ancestors, a.isInstantiation = false := by
  have htyped := c.typed_check p memory
  obtain ⟨further, hcourse, -⟩ := c.check_course p memory
  generalize (c.check p).after { memory } = s at htyped hcourse ⊢
  refine ⟨fun o e hreaches hkind he => ⟨fun hbelow => ?_, fun hbase => ?_⟩,
    fun e he n hn a ha => hcourse.not_instantiation he hn ha, fun id target hget => ?_,
    fun past d rest hsplit hd => ?_⟩
  · have hchild := (mem_withRole.mp he).1
    obtain ⟨top, htop⟩ := hreaches.exists_mem_lineage
    have hself : o ∈ e.ancestors := by
      rw [ancestors_of_mem_children hchild]
      exact List.mem_of_mem_head? (head?_lineage_of_mem htop)
    have hother := hbelow.not_instantiation hself
    simpa [isInstantiation, hkind] using hother
  · refine hreaches.child (mem_withRole.mp he).1 (leadsTo_of_isClassBase hbase he) ?_
    rintro ⟨_, _, hannounced, -⟩
    rw [announcement?, treatment, if_pos hbase] at hannounced
    cases hannounced
  · rw [htyped.targets] at hget
    obtain ⟨call, registry, hid, hmem⟩ := exists_told_of_lastTarget hget
    exact ⟨call, hid, fun a ha => hcourse.not_instantiation hmem rfl ha⟩
  · obtain ⟨n, before, stretch, hpast, hreaches, hcomplaint⟩ :=
      hcourse.exists_complaint consistent_nil htyped.follows hd hsplit
    exact ⟨n, before, stretch, hpast, hcomplaint, fun a ha => hreaches.not_instantiation ha⟩

end Checker

/-- A name that the compiler knows nothing of. -/
def missingName (role : Role) : Node :=
  .mk { role, kind := .identifier, start := 10, stop := 17, text := "missing", hasSymbol := false } []

/-- A file with a variable that begins with a value. -/
def valueHolder (value : Node) : Program :=
  let name : Node :=
    .mk { role := .name, kind := .identifier, start := 6, stop := 7, text := "g" } []
  let declaration := Node.bare .variableDeclaration (.other "declarations*") [name, value]
  ⟨[⟨0, "holder.ts", "", .bare .sourceFile (.other "") [declaration], []⟩]⟩

/-- A name that stands for a value is missed by itself, but not where its type parameters are filled in. -/
theorem unextended_loses_instantiated :
    let filledIn : Node := .bare .expressionWithTypeArguments .initializer
      [missingName .expression, .bare (.typeForm .stringKeyword) (.other "typeArguments*")]
    let s value := (unextended.check (valueHolder value)).after { memory := () }
    (raisedIn (s (missingName .initializer)).journal.toList).map (·.hook) =
        [.setup, .unresolvedVariable, .finish] ∧
      (s (missingName .initializer)).verdict.findings.diagnostics.map (·.message) =
        ["Cannot find variable 'missing'"] ∧
      (raisedIn (s filledIn).journal.toList).map (·.hook) = [.setup, .finish] ∧
      (s filledIn).verdict.findings.diagnostics = [] := by
  decide +kernel

end ExtensibleCheck
