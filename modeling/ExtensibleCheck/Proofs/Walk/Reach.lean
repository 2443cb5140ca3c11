import ExtensibleCheck.Proofs.Walk.Course
import Mathlib.Data.List.Pairwise

/-! Which nodes the walk reaches. It goes down from the outermost nodes of the files, past types and
declarations that hold no values, and not into nodes that an extension takes over. Whatever a check
enters on behalf of a node is entered while it is at a node that it reached, and no variable that can be
reached is left out. -/

namespace ExtensibleCheck

namespace Occurrence

/-- Whether the node is made of more than types and names. -/
def isEntered (o : Occurrence) : Bool :=
  (o.isClassBase || !o.kind.isTypeNode) && !o.isBodiless && !o.isVariable &&
    o.kind ∉ [.importDeclaration, .exportDeclaration, .interfaceDeclaration, .typeAliasDeclaration]

/-- Whether a way down the tree leads from a node on to a child of it. -/
def leadsTo (o c : Occurrence) : Bool :=
  o.isEntered && match o.kind with
    | .callExpression | .newExpression => c.node.role ∈ [.expression, .argument]
    | .propertyAccess | .expressionWithTypeArguments => c.node.role = .expression
    | .elementAccess => c.node.role ∈ [.expression, .argumentExpression]
    | .shorthandProperty => o.isNamedBy c || c.node.role = .shorthandDefault
    | _ => true

/-- Whether an extension took the node over when it was announced. -/
def TakenOver {ι : Type} (o : Occurrence) (journal : List (Event ι)) : Prop :=
  ∃ before after, o.announcement? = some (before, after) ∧ .settled (.ask before) true ∈ journal

/-- Whether a way leads down from a node to another past all that was taken over. -/
inductive Reaches {ι : Type} (journal : List (Event ι)) : Occurrence → Occurrence → Prop
  | here (o) : Reaches journal o o
  | step {o c n} : c ∈ o.children → o.leadsTo c → ¬ o.TakenOver journal → Reaches journal c n →
      Reaches journal o n

variable {o c n : Occurrence}

theorem mem_withRole {role : Role} : c ∈ o.withRole role ↔ c ∈ o.children ∧ c.node.role = role := by
  rw [withRole, List.mem_filter, decide_eq_true_iff]

/-- The walk goes on to those children to which a way leads. -/
theorem mem_entered_iff (h : o.isVariable = false) :
    c ∈ o.entered ↔ c ∈ o.children ∧ o.leadsTo c := by
  have hname : c ∈ (o.child? .name).toList ↔ c ∈ o.children ∧ o.isNamedBy c := by
    rw [Option.mem_toList]
    constructor
    · intro hchild
      have hc := mem_children_of_child? hchild
      exact ⟨hc, (isNamedBy_iff hc).mpr hchild⟩
    · rintro ⟨hc, hnamed⟩
      exact (isNamedBy_iff hc).mp hnamed
  by_cases hbase : o.isClassBase = true
  · have hkind : o.kind = .expressionWithTypeArguments := by
      simpa using (Bool.and_eq_true_iff.mp hbase).1
    simp [entered, treatment, leadsTo, isEntered, isBodiless, hbase, hkind, h, Kind.isMethodLike,
      mem_withRole]
  · rw [Bool.not_eq_true] at hbase
    rw [entered, treatment, if_neg (by simp [hbase]), leadsTo, isEntered, isBodiless, hbase, h]
    cases hkind : o.kind with
    | methodDeclaration | constructorDeclaration | functionDeclaration | getAccessor | setAccessor =>
        cases hbody : o.child? .body <;>
          simp [Kind.treatment, Kind.isTypeNode, Kind.isMethodLike]
    | identifier => simp [isVariable, hkind] at h
    | _ =>
        simp [Kind.treatment, Kind.isTypeNode, Kind.isMethodLike, mem_withRole, hname, and_or_left]

theorem child?_sublist (role : Role) : (o.child? role).toList.Sublist (o.withRole role) := by
  rw [child?, ← List.head?_filter, ← withRole]
  cases o.withRole role with
  | nil => exact List.nil_sublist _
  | cons first others => exact List.singleton_sublist.mpr List.mem_cons_self

theorem nodup_withRole_append {role role' : Role} (h : role ≠ role') :
    (o.withRole role ++ o.withRole role').Nodup := by
  have hother (r : Role) (hrole : decide (r = role)) : decide (r = role') = false := by
    rw [of_decide_eq_true hrole]
    exact decide_eq_false h
  exact Visitor.nodup_chosenFrom_append o hother

/-- No child is entered twice. -/
theorem nodup_entered (o : Occurrence) : o.entered.Nodup := by
  rw [entered]
  split
  · exact List.nodup_nil
  · exact List.nodup_nil
  · exact o.nodup_children.filter _
  · exact o.nodup_children.filter _
  · split
    · exact o.nodup_children
    · exact List.nodup_nil
  · exact nodup_withRole_append (by decide)
  · exact nodup_withRole_append (by decide)
  · exact ((o.child?_sublist .name).append_right _).nodup (nodup_withRole_append (by decide))
  · exact o.nodup_children

theorem mem_children_of_entered (h : o.isVariable = false) {enters : Bool}
    (hc : c ∈ if enters then o.entered else []) : c ∈ o.children := by
  cases enters with
  | false => exact nomatch hc
  | true => exact ((mem_entered_iff h).mp hc).1

/-- Nothing from the one node on downward has the address of anything from the other on downward. -/
def Apart (o o' : Occurrence) : Prop :=
  ∀ n n' : Occurrence, o ∈ n.lineage → o' ∈ n'.lineage → n.id ≠ n'.id

theorem pairwise_apart {nodes : List Occurrence} (h : nodes.Nodup) (hmem : ∀ c ∈ nodes, c ∈ o.children) :
    nodes.Pairwise Apart := by
  refine List.Pairwise.imp_of_mem (fun hc hc' hne => ?_) h
  intro n n' hn hn' hid
  exact hne (eq_of_mem_children_of_mem_lineage (hmem _ hc) (hmem _ hc') hn hn' hid)

namespace Reaches

variable {ι : Type} {journal : List (Event ι)}

theorem mem_lineage (h : Reaches journal o n) (ho : o ∈ o.lineage) : o ∈ n.lineage := by
  induction h with
  | here => exact ho
  | step hc _ _ _ ih =>
      have hlineage := lineage_of_mem_children hc
      have hself := ih (hlineage ▸ List.mem_cons_self)
      exact (suffix_of_mem_lineage hself).1.subset (hlineage ▸ List.mem_cons_of_mem _ ho)

/-- All nodes on the way are entered. -/
theorem entered (h : Reaches journal o n) {a : Occurrence} (ha : a ∈ n.lineage) :
    a = n ∨ a ∈ o.ancestors ∨ a.isEntered ∧ ¬ a.TakenOver journal := by
  induction h with
  | here o =>
      rcases eq_or_mem_ancestors ha with rfl | ha
      · exact Or.inl rfl
      · exact Or.inr (Or.inl ha)
  | step hc hleads htaken _ ih =>
      rcases ih ha with rfl | ha | ha
      · exact Or.inl rfl
      · rw [ancestors_of_mem_children hc] at ha
        rcases eq_or_mem_ancestors ha with rfl | ha
        · exact Or.inr (Or.inr ⟨(Bool.and_eq_true_iff.mp hleads).1, htaken⟩)
        · exact Or.inr (Or.inl ha)
      · exact Or.inr (Or.inr ha)

theorem trans (h : Reaches journal o c) (h' : Reaches journal c n) : Reaches journal o n := by
  induction h with
  | here => exact h'
  | step hc hleads hfree _ ih => exact .step hc hleads hfree (ih h')

/-- Ways from one node lead to one node with a given address at most. -/
theorem eq_of_id {journal' : List (Event ι)} {n' : Occurrence} (h : Reaches journal o n)
    (h' : Reaches journal' o n') (hid : n.id = n'.id) : n = n' := by
  induction h generalizing n' with
  | here o =>
      cases h' with
      | here => rfl
      | step hc _ _ hrest =>
          exact absurd hid (id_ne_of_mem_lineage hc (hrest.mem_lineage (mem_lineage_self hc)))
  | step hc _ _ hrest ih =>
      have hn := hrest.mem_lineage (mem_lineage_self hc)
      cases h' with
      | here => exact absurd hid.symm (id_ne_of_mem_lineage hc hn)
      | step hc' _ _ hrest' =>
          have hn' := hrest'.mem_lineage (mem_lineage_self hc')
          obtain rfl := eq_of_mem_children_of_mem_lineage hc hc' hn hn' hid
          exact ih hrest' hid

end Reaches

end Occurrence

open Occurrence

section

variable {ι : Type} {nodes : List Occurrence} {events journal : List (Event ι)} {o : Occurrence}

/-- A stretch of entries that are made on behalf of one node. -/
inductive Piece (journal : List (Event ι)) (n : Occurrence) : List (Event ι) → Prop
  | variable {piece} : n.isVariable → VariableCheck n piece → Piece journal n piece
  | opening {enters piece} : Opening n enters piece → Piece journal n piece
  | closing {enters piece} : n.isVariable = false → (enters = true → ¬ n.TakenOver journal) →
      Closing n enters piece → Piece journal n piece

/-- Whoever answered that a node is not taken over does not say so elsewhere. -/
def Consistent (journal events : List (Event ι)) : Prop :=
  ∀ n before after, Occurrence.announcement? n = some (before, after) →
    .settled (.ask before) false ∈ events → .settled (.ask before) true ∉ journal

theorem consistent_nil : Consistent ([] : List (Event ι)) events := fun _ _ _ _ _ h => nomatch h

theorem Consistent.mono {rest : List (Event ι)} (h : Consistent journal events)
    (hsub : ∀ e ∈ rest, e ∈ events) : Consistent journal rest :=
  fun n before after hannounced hmem => h n before after hannounced (hsub _ hmem)

theorem Opening.not_takenOver (h : Opening o true events) (hjournal : Consistent journal events) :
    ¬ o.TakenOver journal := by
  rintro ⟨before, after, hannounced, hmem⟩
  generalize hentered : true = enters at h
  cases h with
  | plain hnone _ =>
      rw [hnone] at hannounced
      cases hannounced
  | closure hclosure _ =>
      rw [isClosure_of_announcement? hannounced] at hclosure
      cases hclosure
  | @announced before' _ taken _ hannounced' hasked =>
      obtain rfl : taken = false := by simpa using hentered.symm
      rw [hannounced] at hannounced'
      cases hannounced'
      exact hjournal o before after hannounced hasked.settled_mem hmem

theorem append_eq_append_cons {α : Type} {first second past rest : List α} {a : α}
    (h : first ++ second = past ++ a :: rest) :
    (∃ before, first = past ++ a :: before ∧ rest = before ++ second) ∨
      ∃ after, past = first ++ after ∧ second = after ++ a :: rest := by
  rcases List.append_eq_append_iff.mp h with ⟨after, hpast, hsecond⟩ | ⟨before, hfirst, hrest⟩
  · exact Or.inr ⟨after, hpast, hsecond⟩
  · cases before with
    | nil => exact Or.inr ⟨[], by simpa using hfirst.symm, by simpa using hrest.symm⟩
    | cons b before =>
        obtain ⟨rfl, rfl⟩ := List.cons_eq_cons.mp hrest
        exact Or.inl ⟨before, hfirst, rfl⟩

/-- A moment in the walk through a node at which an entry is made on behalf of the node itself, given what
is entered during that walk before it and after it. -/
inductive Moment (journal : List (Event ι)) (n : Occurrence) (e : Event ι) :
    (before after : List (Event ι)) → Prop
  | variable {before after} : n.isVariable → VariableCheck n (before ++ e :: after) →
      Moment journal n e before after
  | opening {enters before after inner closing} : Opening n enters (before ++ e :: after) →
      Moment journal n e before (after ++ inner ++ closing)
  | closing {enters opening inner before after} : n.isVariable = false →
      (enters = true → ¬ n.TakenOver journal) →
      Trail (if enters then n.entered else []) inner → Closing n enters (before ++ e :: after) →
      Moment journal n e (opening ++ inner ++ before) after

theorem Moment.exists_piece {n : Occurrence} {e : Event ι} {before after : List (Event ι)}
    (h : Moment journal n e before after) : ∃ earlier first last later, before = earlier ++ first ∧
      after = last ++ later ∧ Piece journal n (first ++ e :: last) := by
  cases h with
  | «variable» hvariable hcheck =>
      exact ⟨[], before, after, [], rfl, (List.append_nil _).symm, .variable hvariable hcheck⟩
  | @opening _ _ last inner closing hopening =>
      exact ⟨[], before, last, inner ++ closing, rfl, List.append_assoc .., .opening hopening⟩
  | @closing _ opening inner first _ hvariable hfree _ hclosing =>
      exact ⟨opening ++ inner, first, after, [], rfl, (List.append_nil _).symm,
        .closing hvariable hfree hclosing⟩

/-- Every entry of a trail but the deeds is made at some moment in the walk through a node that is
reached. -/
theorem Trail.exists_moment (h : Trail nodes events) (hjournal : Consistent journal events)
    {past rest : List (Event ι)} {e : Event ι} (hsplit : events = past ++ e :: rest) :
    e.isDeed ∨ ∃ o ∈ nodes, ∃ n earlier before after later, past = earlier ++ before ∧
      rest = after ++ later ∧ o.Reaches journal n ∧ Moment journal n e before after := by
  induction h generalizing past rest with
  | aside hdeeds => exact Or.inl (hdeeds e (by rw [hsplit]; simp))
  | @append _ _ left right _ _ ih ih' =>
      rcases append_eq_append_cons hsplit with ⟨between, hleft, rfl⟩ | ⟨between, rfl, hright⟩
      · refine (ih (hjournal.mono fun _ => List.mem_append_left _) hleft).imp_right ?_
        rintro ⟨o, ho, n, earlier, before, after, later, hpast, rfl, hmoment⟩
        exact ⟨o, List.mem_append_left _ ho, n, earlier, before, after, later ++ right, hpast,
          List.append_assoc .., hmoment⟩
      · refine (ih' (hjournal.mono fun _ => List.mem_append_right _) hright).imp_right ?_
        rintro ⟨o, ho, n, earlier, before, after, later, rfl, hrest, hmoment⟩
        exact ⟨o, List.mem_append_right _ ho, n, left ++ earlier, before, after, later,
          (List.append_assoc ..).symm, hrest, hmoment⟩
  | @«variable» o events hvariable hcheck =>
      exact Or.inr ⟨o, List.mem_singleton_self o, o, [], past, rest, [], rfl,
        (List.append_nil _).symm, .here o, .variable hvariable (hsplit ▸ hcheck)⟩
  | @node o enters opening inner closing hvariable hopening htrail hclosing ih =>
      have hfree (h : enters = true) : ¬ o.TakenOver journal :=
        Opening.not_takenOver (h ▸ hopening) (hjournal.mono fun e he =>
          List.mem_append_left _ (List.mem_append_left _ he))
      rcases append_eq_append_cons hsplit with ⟨between, hleft, rfl⟩ | ⟨between, rfl, hright⟩
      · rcases append_eq_append_cons hleft with ⟨between', hopen, rfl⟩ | ⟨between', rfl, hmiddle⟩
        · exact Or.inr ⟨o, List.mem_singleton_self o, o, [], past, between' ++ inner ++ closing, [], rfl,
            (List.append_nil _).symm, .here o, .opening (hopen ▸ hopening)⟩
        · refine (ih (hjournal.mono fun e he =>
            List.mem_append_left _ (List.mem_append_right _ he)) hmiddle).imp_right ?_
          rintro ⟨c, hc, n, earlier, before, after, later, rfl, rfl, hreaches, hmoment⟩
          cases enters with
          | false => exact nomatch hc
          | true =>
              obtain ⟨hchild, hleads⟩ := (mem_entered_iff hvariable).mp hc
              exact ⟨o, List.mem_singleton_self o, n, opening ++ earlier, before, after,
                later ++ closing, (List.append_assoc ..).symm, List.append_assoc ..,
                .step hchild hleads (hfree rfl) hreaches, hmoment⟩
      · exact Or.inr ⟨o, List.mem_singleton_self o, o, [], opening ++ inner ++ between, rest, [], rfl,
          (List.append_nil _).symm, .here o, .closing hvariable hfree htrail (hright ▸ hclosing)⟩

/-- So it stands in a stretch made for that node. -/
theorem Trail.exists_piece (h : Trail nodes events) (hjournal : Consistent journal events)
    {past rest : List (Event ι)} {e : Event ι} (hsplit : events = past ++ e :: rest) :
    e.isDeed ∨ ∃ o ∈ nodes, ∃ n before first last after, past = before ++ first ∧
      rest = last ++ after ∧ o.Reaches journal n ∧ Piece journal n (first ++ e :: last) := by
  refine (h.exists_moment hjournal hsplit).imp_right ?_
  rintro ⟨o, ho, n, earlier, before, after, later, rfl, rfl, hreaches, hmoment⟩
  obtain ⟨between, first, last, between', rfl, rfl, hpiece⟩ := hmoment.exists_piece
  exact ⟨o, ho, n, earlier ++ between, first, last, between' ++ later,
    (List.append_assoc ..).symm, List.append_assoc .., hreaches, hpiece⟩

/-- All that is entered while the walk is at a node, from its opening to its closing. -/
inductive Passage (n : Occurrence) : List (Event ι) → Prop
  | variable {check} : n.isVariable → VariableCheck n check → Passage n check
  | node {enters opening inner closing} : n.isVariable = false → Opening n enters opening →
      Trail (if enters then n.entered else []) inner → Closing n enters closing →
      Passage n (opening ++ inner ++ closing)

/-- Whatever is to be gone into at a node is gone into when the walk is through with it. -/
theorem Passage.exists_inquiry {n : Occurrence} {matter : Matter} (h : Passage n events)
    (hvariable : n.isVariable = false) (hmatter : n.matter? = some matter) : ∃ opening inner own,
      events = opening ++ inner ++ own ∧ Opening n true opening ∧ Trail n.entered inner ∧
        Inquiry n matter own := by
  have hplain := announcement?_of_matter? hmatter
  cases h with
  | «variable» hother =>
      rw [hvariable] at hother
      cases hother
  | node _ hopening htrail hclosing =>
      cases hclosing with
      | plain _ hremark =>
          exact ⟨_, _, _, rfl, hopening, htrail, hremark.inquiry_of_matter? hmatter⟩
      | announced hannounced | passed hannounced =>
          rw [hplain] at hannounced
          cases hannounced

/-- Every node that is reached is passed through. -/
theorem Trail.exists_passage (h : Trail nodes events) (hjournal : ∀ e ∈ events, e ∈ journal)
    {n : Occurrence} (ho : o ∈ nodes) (hreaches : o.Reaches journal n) :
    ∃ past passage rest, events = past ++ passage ++ rest ∧ Passage n passage := by
  induction h generalizing o with
  | aside => exact nomatch ho
  | @append _ _ first second _ _ ih ih' =>
      rcases List.mem_append.mp ho with ho | ho
      · obtain ⟨past, passage, rest, rfl, hpassage⟩ :=
          ih (fun e he => hjournal e (List.mem_append_left _ he)) ho hreaches
        exact ⟨past, passage, rest ++ second, by simp, hpassage⟩
      · obtain ⟨past, passage, rest, rfl, hpassage⟩ :=
          ih' (fun e he => hjournal e (List.mem_append_right _ he)) ho hreaches
        exact ⟨first ++ past, passage, rest, by simp, hpassage⟩
  | @«variable» o' events hvariable hcheck =>
      obtain rfl := List.mem_singleton.mp ho
      cases hreaches with
      | here => exact ⟨[], events, [], by simp, .variable hvariable hcheck⟩
      | step _ hleads _ _ =>
          -- Nothing lies below a variable.
          simp [leadsTo, isEntered, hvariable] at hleads
  | @node o' enters opening inner closing hvariable hopening htrail hclosing ih =>
      obtain rfl := List.mem_singleton.mp ho
      cases hreaches with
      | here => exact ⟨[], _, [], by simp, .node hvariable hopening htrail hclosing⟩
      | @step _ c _ hc hleads htaken hrest =>
          have hentered : c ∈ o.entered := (mem_entered_iff hvariable).mpr ⟨hc, hleads⟩
          have henters : enters = true := by
            generalize hb : enters = b at hopening
            cases hopening with
            | plain | closure => rfl
            | @announced before after taken _ hannounced hasked =>
                cases taken with
                | false => rfl
                | true =>
                    refine absurd ⟨before, after, hannounced, hjournal _ ?_⟩ htaken
                    exact List.mem_append_left _ (List.mem_append_left _ hasked.settled_mem)
          subst henters
          obtain ⟨past, passage, rest, rfl, hpassage⟩ := ih (fun e he =>
            hjournal e (List.mem_append_left _ (List.mem_append_right _ he))) hentered hrest
          exact ⟨opening ++ past, passage, rest ++ closing, by simp, hpassage⟩

end

namespace Program

variable {p : Program}

/-- Whether the walk through one of the files gets to a node. -/
def Reaches {ι : Type} (p : Program) (journal : List (Event ι)) (n : Occurrence) : Prop :=
  ∃ top ∈ p.tops, top.Reaches journal n

theorem exists_of_mem_tops {top : Occurrence} (h : top ∈ p.tops) :
    ∃ file ∈ p.files, top ∈ file.rootOccurrence.children :=
  List.mem_flatMap.mp h

theorem lineage_of_mem_tops {top : Occurrence} (h : top ∈ p.tops) : top.lineage = [top] := by
  obtain ⟨file, -, hchild⟩ := exists_of_mem_tops h
  exact lineage_of_mem_children hchild

/-- The outermost nodes are apart if no number stands for two files. -/
theorem pairwise_apart_tops (h : (p.files.map (·.number)).Nodup) : p.tops.Pairwise Apart := by
  refine List.pairwise_flatMap.mpr ⟨fun file _ => pairwise_apart (nodup_children _) fun _ hc => hc, ?_⟩
  refine (List.pairwise_map.mp h).imp fun hne top htop top' htop' n n' hn hn' hid => hne ?_
  have hnumber {file : SourceFile} {top n : Occurrence} (htop : top ∈ file.rootOccurrence.children)
      (hn : top ∈ n.lineage) : n.id.file = file.number := by
    have hfile : n.file = file := (suffix_of_mem_lineage hn).2.2.symm.trans (file_of_mem_children htop)
    exact congrArg SourceFile.number hfile
  rw [← hnumber htop hn, ← hnumber htop' hn', hid]

theorem mem_lineage_top {top : Occurrence} (h : top ∈ p.tops) : top ∈ top.lineage := by
  rw [lineage_of_mem_tops h]
  exact List.mem_singleton_self top

/-- A node that is reached stands below an outermost one, or is one. -/
theorem Reaches.exists_mem_lineage {ι : Type} {journal : List (Event ι)} {n : Occurrence}
    (h : p.Reaches journal n) : ∃ top, top ∈ n.lineage := by
  obtain ⟨top, htop, hreaches⟩ := h
  exact ⟨top, hreaches.mem_lineage (mem_lineage_top htop)⟩

/-- The walk goes on from a node that nobody takes over. -/
theorem Reaches.child {ι : Type} {journal : List (Event ι)} {o c : Occurrence} (h : p.Reaches journal o)
    (hc : c ∈ o.children) (hleads : o.leadsTo c) (hfree : ¬ o.TakenOver journal) :
    p.Reaches journal c := by
  obtain ⟨top, htop, hreaches⟩ := h
  exact ⟨top, htop, hreaches.trans (.step hc hleads hfree (.here c))⟩

/-- No two nodes with the same address are reached. -/
theorem Reaches.eq_of_id {ι : Type} {journal : List (Event ι)} {n n' : Occurrence}
    (h : p.Reaches journal n) (h' : p.Reaches journal n') (hnumbers : (p.files.map (·.number)).Nodup)
    (hid : n.id = n'.id) : n = n' := by
  obtain ⟨top, htop, hreaches⟩ := h
  obtain ⟨top', htop', hreaches'⟩ := h'
  obtain rfl : top = top' := by
    by_contra hne
    have hsymm : Std.Symm Apart := ⟨fun _ _ h n n' hn hn' hid => h n' n hn' hn hid.symm⟩
    exact (pairwise_apart_tops hnumbers).forall htop htop' hne n n'
      (hreaches.mem_lineage (mem_lineage_top htop)) (hreaches'.mem_lineage (mem_lineage_top htop')) hid
  exact Occurrence.Reaches.eq_of_id hreaches hreaches' hid

/-- All nodes around a node that is reached are entered, and not taken over. -/
theorem Reaches.ancestors {ι : Type} {journal : List (Event ι)} {n a : Occurrence}
    (h : p.Reaches journal n) (ha : a ∈ n.ancestors) : a.isEntered ∧ ¬ a.TakenOver journal := by
  obtain ⟨top, htop, hreaches⟩ := h
  have houtermost : top.ancestors = [] := by
    obtain ⟨file, -, hchild⟩ := exists_of_mem_tops htop
    exact ancestors_of_mem_children hchild
  rcases hreaches.entered (mem_lineage_of_mem_ancestors ha) with rfl | hnone | hentered
  · exact absurd rfl (id_ne_of_mem_ancestors ha)
  · rw [houtermost] at hnone
    exact nomatch hnone
  · exact hentered

end Program

end ExtensibleCheck
