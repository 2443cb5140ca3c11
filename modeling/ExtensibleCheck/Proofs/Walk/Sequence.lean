import ExtensibleCheck.Proofs.Syntax.Order
import ExtensibleCheck.Proofs.Walk.Hooks
import ExtensibleCheck.Proofs.Walk.Reach

/-! In which order hooks are used. The tree decides it alone: nodes further left come before nodes
further right, a node is announced before what is below it, whatever else is to be said of the node comes
after that, and at one node every hook has its turn. -/

namespace ExtensibleCheck

/-- When a hook has its turn among those that are used for one node. -/
def Hook.turn : Hook → ℕ
  | .beforeVisitMethod | .beforeVisitClass | .beforeMethodCall => 0
  | .missingMethod => 2
  | .ambiguousMethods => 3
  | .methodSelection => 4
  | .afterVisitMethod | .afterVisitClass | .afterMethodCall => 5
  | .incompatibleReturn => 6
  | _ => 1

namespace HookCall

variable {a b : HookCall Occurrence CheckedType}

/-- Which of two uses of hooks comes first, as the tree has it. -/
inductive Precedes : HookCall Occurrence CheckedType → HookCall Occurrence CheckedType → Prop
  | apart {a b m n c c'} : a.node? = some m → b.node? = some n → c ∈ m.lineage → c' ∈ n.lineage →
      Occurrence.LeftOf c c' → Precedes a b
  | entering {a b m n} : a.node? = some m → b.node? = some n → m ∈ n.ancestors → a.hook.turn = 0 →
      Precedes a b
  | leaving {a b m n} : a.node? = some m → b.node? = some n → n ∈ m.ancestors → b.hook.turn ≠ 0 →
      Precedes a b
  | turn {a b n} : a.node? = some n → b.node? = some n → a.hook.turn < b.hook.turn → Precedes a b

/-- Where in the order of the tree a hook is used: the way down to the node, and from there whether
before or after what is below. -/
def place (a : HookCall Occurrence CheckedType) : List ℕ :=
  ((a.node?.map (·.id)).map fun id =>
    id.way ++ [if a.hook.turn = 0 then 0 else 2, a.hook.turn]).getD []

theorem place_eq {n : Occurrence} (h : a.node? = some n) :
    a.place = n.id.way ++ [if a.hook.turn = 0 then 0 else 2, a.hook.turn] := by
  rw [place, h]
  rfl

theorem Precedes.place_lt (h : a.Precedes b) : a.place < b.place := by
  cases h with
  | apart ha hb hc hc' hleft =>
      obtain ⟨o, child, child', i, j, rfl, rfl, hij⟩ := hleft.exists_branches
      obtain ⟨rest, hrest⟩ := Occurrence.way_prefix_of_mem_lineage hc
      obtain ⟨rest', hrest'⟩ := Occurrence.way_prefix_of_mem_lineage hc'
      rw [place_eq ha, place_eq hb, ← hrest, ← hrest', Occurrence.way_below, Occurrence.way_below]
      simp only [List.append_assoc]
      refine List.append_left_lt ?_
      exact List.cons_lt_cons_iff.mpr (Or.inr ⟨rfl, List.cons_lt_cons_iff.mpr (Or.inl hij)⟩)
  | entering ha hb habove hturn =>
      obtain ⟨rest, hrest⟩ := Occurrence.way_of_mem_ancestors habove
      rw [place_eq ha, place_eq hb, hrest, if_pos hturn, List.append_assoc]
      exact List.append_left_lt (List.cons_lt_cons_iff.mpr (Or.inl Nat.zero_lt_one))
  | leaving ha hb habove hturn =>
      obtain ⟨rest, hrest⟩ := Occurrence.way_of_mem_ancestors habove
      rw [place_eq ha, place_eq hb, hrest, if_neg hturn, List.append_assoc]
      exact List.append_left_lt (List.cons_lt_cons_iff.mpr (Or.inl Nat.one_lt_two))
  | turn ha hb hturn =>
      rw [place_eq ha, place_eq hb, if_neg (Nat.ne_of_gt (Nat.zero_lt_of_lt hturn))]
      refine List.append_left_lt ?_
      split
      · exact List.cons_lt_cons_iff.mpr (Or.inl Nat.zero_lt_two)
      · exact List.cons_lt_cons_iff.mpr (Or.inr ⟨rfl, List.cons_lt_cons_iff.mpr (Or.inl hturn)⟩)

/-- Whether a hook is used for a node or for one below it. That the node itself is returned though its
type does not fit is only said by a return statement. -/
def IsWithin (c : Occurrence) (a : HookCall Occurrence CheckedType) : Prop :=
  ∃ n, a.node? = some n ∧ c ∈ n.lineage ∧
    (n = c → a.hook = .incompatibleReturn → c.kind = .returnStatement)

/-- Whether a hook is used when a node is closed: for the node itself, or for the expression that is the
body of an arrow function. -/
inductive Closes (o : Occurrence) : HookCall Occurrence CheckedType → Prop
  | here {use} : use.node? = some o → use.hook.turn ≠ 0 →
      (use.hook = .incompatibleReturn → o.kind = .returnStatement) → Closes o use
  | arrowBody {body inferred} : o.kind = .arrowFunction → o.child? .body = some body →
      Closes o (.ask (.incompatibleReturn body inferred))

theorem Precedes.asymm (h : a.Precedes b) : ¬ b.Precedes a :=
  fun h' => lt_asymm h.place_lt h'.place_lt

end HookCall

open Occurrence

theorem Hook.turn_lt {hook : Hook} (h : hook ≠ .incompatibleReturn) : hook.turn < 6 := by
  cases hook <;> first | decide | exact absurd rfl h

theorem turn_of_announcement? {o : Occurrence} {before : Question Occurrence CheckedType}
    {after : Notice Occurrence CheckedType} (h : o.announcement? = some (before, after)) :
    before.hook.turn = 0 ∧ after.hook.turn = 5 := by
  rw [announcement?] at h
  split at h
  · cases h
    exact ⟨rfl, rfl⟩
  · split at h
    · cases h
      exact ⟨rfl, rfl⟩
    · cases h
  · cases h
    exact ⟨rfl, rfl⟩
  · cases h

section

variable {o c : Occurrence} {a b : HookCall Occurrence CheckedType}
  {calls : List (HookCall Occurrence CheckedType)}

theorem Resolves.spec (h : Resolves o a) : a.node? = some o ∧ a.hook.turn ∈ [2, 3, 4] := by
  cases h <;> exact ⟨rfl, by simp [HookCall.hook, Notice.hook, Hook.turn]⟩

theorem Mistaken.closes {question : Question Occurrence CheckedType} (h : Mistaken o question) :
    HookCall.Closes o (.ask question) := by
  cases h with
  | property | «attribute» | assignment => exact .here rfl Nat.one_ne_zero fun hhook => nomatch hhook
  | «return» ht =>
      have hkind : o.kind = .returnStatement := by
        have htreatment := kind_of_treatment ht (by decide)
        cases hk : o.kind <;> simp_all [Kind.treatment]
      exact .here rfl (Nat.succ_ne_zero 5) fun _ => hkind
  | arrowBody hkind hbody _ => exact .arrowBody hkind hbody

theorem Leaving.closes (h : Leaving o calls) (ha : a ∈ calls) : a.Closes o := by
  rcases h.cases ha with ⟨question, rfl, hmistaken⟩ | ⟨-, hresolves⟩ | ⟨before, after, hannounced, rfl⟩
  · exact hmistaken.closes
  · obtain ⟨hnode, hturn⟩ := hresolves.spec
    refine .here hnode (fun hzero => ?_) fun hhook => ?_
    · rw [hzero] at hturn
      simp at hturn
    · rw [hhook] at hturn
      simp [Hook.turn] at hturn
  · have hturn : after.hook.turn = 5 := (turn_of_announcement? hannounced).2
    refine .here (announcement?_spec hannounced).2.1 ?_ fun hhook => ?_
    · show after.hook.turn ≠ 0
      rw [hturn]
      decide
    · rw [show after.hook = .incompatibleReturn from hhook] at hturn
      cases hturn

/-- A call is resolved in the turns of the hooks. -/
theorem Resolving.pairwise (h : Resolving o calls) : calls.Pairwise fun a b => a.hook.turn < b.hook.turn := by
  have hselecting {selecting : List (HookCall Occurrence CheckedType)}
      (h : selecting = [] ∨ ∃ target, selecting = [.notify (.methodSelection o target)]) :
      selecting.Pairwise (fun a b => a.hook.turn < b.hook.turn) ∧
        ∀ a ∈ selecting, a.hook = .methodSelection := by
    obtain rfl | ⟨target, rfl⟩ := h
    · exact ⟨.nil, (fun _ h => nomatch h)⟩
    · exact ⟨List.pairwise_singleton .., fun a ha => List.mem_singleton.mp ha ▸ rfl⟩
  cases h with
  | compiled h => exact (hselecting h).1
  | supplied hnarrowing h =>
      obtain ⟨hpairwise, hhook⟩ := hselecting h
      obtain rfl | ⟨candidates, rfl⟩ := hnarrowing
      · refine .cons (fun a ha => ?_) hpairwise
        rw [hhook a ha]
        show 2 < 4
        decide
      · refine .cons (fun a ha => ?_) (.cons (fun a ha => ?_) hpairwise)
        · rcases List.mem_cons.mp ha with rfl | ha
          · show 2 < 3
            decide
          · rw [hhook a ha]
            show 2 < 4
            decide
        · rw [hhook a ha]
          show 3 < 4
          decide

theorem Leaving.pairwise (h : Leaving o calls) : calls.Pairwise HookCall.Precedes := by
  cases h with
  | silent => exact .nil
  | mistaken => exact List.pairwise_singleton ..
  | @announced before after resolving hannounced hresolving =>
      have hafter : (HookCall.notify after).node? = some o := (announcement?_spec hannounced).2.1
      obtain rfl | ⟨-, hresolving⟩ := hresolving
      · exact List.pairwise_singleton ..
      refine List.pairwise_append.mpr ⟨?_, List.pairwise_singleton .., fun a ha b hb => ?_⟩
      · refine hresolving.pairwise.imp_of_mem fun ha hb hturn => ?_
        exact .turn (hresolving.resolves ha).spec.1 (hresolving.resolves hb).spec.1 hturn
      · obtain rfl := List.mem_singleton.mp hb
        obtain ⟨hnode, hturn⟩ := (hresolving.resolves ha).spec
        refine .turn hnode hafter ?_
        show a.hook.turn < after.hook.turn
        rw [(turn_of_announcement? hannounced).2]
        simp at hturn
        omega

namespace HookCall

theorem IsWithin.precedes {c' : Occurrence} (ha : a.IsWithin c) (hb : b.IsWithin c') (h : c.LeftOf c') :
    a.Precedes b := by
  obtain ⟨m, hm, hc, -⟩ := ha
  obtain ⟨n, hn, hc', -⟩ := hb
  exact .apart hm hn hc hc' h

theorem IsWithin.of_mem_children (h : a.IsWithin c) (hc : c ∈ o.children) (ho : o ∈ o.lineage) :
    a.IsWithin o := by
  obtain ⟨n, hnode, hn, -⟩ := h
  have habove := mem_ancestors_of_mem_lineage hc hn ho
  refine ⟨n, hnode, mem_lineage_of_mem_ancestors habove, ?_⟩
  rintro rfl
  exact absurd rfl (id_ne_of_mem_ancestors habove)

/-- A node is announced before anything below it. -/
theorem IsWithin.announced (hb : b.IsWithin c) (hc : c ∈ o.children) (ho : o ∈ o.lineage)
    (hnode : a.node? = some o) (hturn : a.hook.turn = 0) : a.Precedes b := by
  obtain ⟨n, hn, hlineage, -⟩ := hb
  exact .entering hnode hn (mem_ancestors_of_mem_lineage hc hlineage ho) hturn

theorem Closes.isWithin (h : a.Closes o) (ho : o ∈ o.lineage) : a.IsWithin o := by
  cases h with
  | here hnode _ hreturn => exact ⟨o, hnode, ho, fun _ => hreturn⟩
  | @arrowBody body inferred _ hbody =>
      have hchild := mem_children_of_child? hbody
      refine ⟨body, rfl, ?_, ?_⟩
      · rw [lineage_of_mem_children hchild]
        exact List.mem_cons_of_mem _ ho
      · rintro rfl
        have hself : body ∈ body.lineage := ho
        exact absurd rfl (id_ne_of_mem_lineage hchild hself)

theorem Closes.announced (h : b.Closes o) (ho : o ∈ o.lineage) (hnode : a.node? = some o)
    (hturn : a.hook.turn = 0) : a.Precedes b := by
  cases h with
  | here hb hb' _ => exact .turn hnode hb (hturn ▸ Nat.pos_of_ne_zero hb')
  | @arrowBody body inferred _ hbody =>
      have hchild := mem_children_of_child? hbody
      have habove : o ∈ body.ancestors := ancestors_of_mem_children hchild ▸ ho
      exact .entering hnode rfl habove hturn

/-- What closes a node comes after all that is below it. -/
theorem Closes.after (h : b.Closes o) (ho : o ∈ o.lineage) (hwritten : o.node.ListsAsWritten)
    (hc : c ∈ o.children) (ha : a.IsWithin c) : a.Precedes b := by
  obtain ⟨n, hnode, hn, hreturn⟩ := ha
  cases h with
  | here hb hturn _ => exact .leaving hnode hb (mem_ancestors_of_mem_lineage hc hn ho) hturn
  | @arrowBody body inferred hkind hbody =>
      have hchild := mem_children_of_child? hbody
      by_cases hsame : c = body
      · subst hsame
        rcases eq_or_mem_ancestors hn with rfl | habove
        · -- The body returns nothing itself, so the last turn is not taken yet.
          refine .turn hnode rfl (Hook.turn_lt fun hhook => ?_)
          have hrole : c.node.role = .body := by simpa using List.find?_some hbody
          exact hwritten.2 hkind _ (mem_children_node hchild) hrole (hreturn rfl hhook)
        · exact .leaving hnode rfl habove (Nat.succ_ne_zero 5)
      · have hself : body ∈ body.lineage := mem_lineage_self hchild
        exact .apart hnode rfl hn hself (leftOf_body hwritten hkind hc hbody hsame)

end HookCall

/-- The walk goes on to children from left to right. -/
theorem Occurrence.entered_sublist (h : o.node.ListsAsWritten) : o.entered.Sublist o.children := by
  rw [entered]
  split
  · exact List.nil_sublist _
  · exact List.nil_sublist _
  · exact List.filter_sublist
  · exact List.filter_sublist
  · split
    · exact List.Sublist.refl _
    · exact List.nil_sublist _
  · rename_i ht
    have hkind : o.kind = .callExpression ∨ o.kind = .newExpression := by
      simpa [isCall] using isCall_of_treatment ht
    refine withRole_append_sublist h (by decide) ?_
    rcases hkind with hk | hk <;> rw [hk] <;> rfl
  · rename_i ht
    have htreatment := kind_of_treatment ht (by decide)
    refine withRole_append_sublist h (by decide) ?_
    cases hk : o.kind <;> simp_all [Kind.treatment, Kind.allows]
  · rename_i ht
    have htreatment := kind_of_treatment ht (by decide)
    refine ((o.child?_sublist .name).append_right _).trans (withRole_append_sublist h (by decide) ?_)
    cases hk : o.kind <;> simp_all [Kind.treatment, Kind.allows]
  · exact List.Sublist.refl _

variable {ι : Type} {nodes : List Occurrence} {events : List (Event ι)}

theorem Opening.announces {enters : Bool} (h : Opening o enters events) :
    (∀ a ∈ raisedIn events, a.node? = some o ∧ a.hook.turn = 0) ∧
      (raisedIn events).Pairwise HookCall.Precedes := by
  obtain hnone | ⟨before, after, hannounced, hone⟩ := h.raised
  · rw [hnone]
    exact ⟨(fun _ h => nomatch h), .nil⟩
  · rw [hone]
    refine ⟨fun a ha => ?_, List.pairwise_singleton ..⟩
    obtain rfl := List.mem_singleton.mp ha
    exact ⟨congrArg some (announcement?_spec hannounced).1, (turn_of_announcement? hannounced).1⟩

/-- Along a trail hooks are used for its nodes and what is below them. -/
theorem Trail.isWithin (h : Trail nodes events) (hself : ∀ o ∈ nodes, o ∈ o.lineage) :
    ∀ a ∈ raisedIn events, ∃ o ∈ nodes, a.IsWithin o := by
  induction h with
  | aside hdeeds =>
      rw [raisedIn, filterMap_deeds Event.raised?_of_isDeed hdeeds]
      exact List.forall_mem_nil _
  | @append nodes nodes' first second _ _ ih ih' =>
      intro a ha
      rw [raisedIn_append] at ha
      rcases List.mem_append.mp ha with ha | ha
      · obtain ⟨o, ho, hwithin⟩ := ih (fun o ho => hself o (List.mem_append_left _ ho)) a ha
        exact ⟨o, List.mem_append_left _ ho, hwithin⟩
      · obtain ⟨o, ho, hwithin⟩ := ih' (fun o ho => hself o (List.mem_append_right _ ho)) a ha
        exact ⟨o, List.mem_append_right _ ho, hwithin⟩
  | @«variable» o events _ hcheck =>
      intro a ha
      obtain rfl := hcheck.eq_of_raised ha
      have ho := hself o (List.mem_singleton_self o)
      refine ⟨o, List.mem_singleton_self o, o, rfl, ho, fun _ hhook => ?_⟩
      cases hhook
  | @node o enters opening inner closing hvariable hopening _ hclosing ih =>
      have ho := hself o (List.mem_singleton_self o)
      intro a ha
      refine ⟨o, List.mem_singleton_self o, ?_⟩
      rw [raisedIn_append, raisedIn_append] at ha
      rcases List.mem_append.mp ha with ha | ha
      · rcases List.mem_append.mp ha with ha | ha
        · obtain ⟨hnode, hturn⟩ := hopening.announces.1 a ha
          refine ⟨o, hnode, ho, fun _ hhook => ?_⟩
          rw [hhook] at hturn
          cases hturn
        · obtain ⟨c, hc, hwithin⟩ :=
            ih (fun c hc => mem_lineage_self (mem_children_of_entered hvariable hc)) a ha
          exact hwithin.of_mem_children (mem_children_of_entered hvariable hc) ho
      · exact (hclosing.raised.closes ha).isWithin ho

/-- Along a trail hooks are used in the order of the tree. -/
theorem Trail.pairwise_precedes (h : Trail nodes events) (hnodes : nodes.Pairwise LeftOf)
    (hself : ∀ o ∈ nodes, o ∈ o.lineage) (hwritten : ∀ o ∈ nodes, o.node.AsWritten) :
    (raisedIn events).Pairwise HookCall.Precedes := by
  induction h with
  | aside hdeeds =>
      rw [raisedIn, filterMap_deeds Event.raised?_of_isDeed hdeeds]
      exact .nil
  | @append nodes nodes' first second h h' ih ih' =>
      obtain ⟨hleft, hright, hboth⟩ := List.pairwise_append.mp hnodes
      have hself' := List.forall_mem_append.mp hself
      have hwritten' := List.forall_mem_append.mp hwritten
      rw [raisedIn_append]
      refine List.pairwise_append.mpr ⟨ih hleft hself'.1 hwritten'.1, ih' hright hself'.2 hwritten'.2, ?_⟩
      intro a ha b hb
      obtain ⟨o, ho, hwithin⟩ := h.isWithin hself'.1 a ha
      obtain ⟨o', ho', hwithin'⟩ := h'.isWithin hself'.2 b hb
      exact hwithin.precedes hwithin' (hboth o ho o' ho')
  | «variable» _ hcheck =>
      rcases hcheck.raised with hnone | hone
      · rw [hnone]
        exact .nil
      · rw [hone]
        exact List.pairwise_singleton ..
  | @node o enters opening inner closing hvariable hopening htrail hclosing ih =>
      have ho := hself o (List.mem_singleton_self o)
      have htree := hwritten o (List.mem_singleton_self o)
      have hsub : (if enters then o.entered else []).Sublist o.children := by
        split
        · exact entered_sublist htree.here
        · exact List.nil_sublist _
      have hown := fun c hc => mem_lineage_self (c := c) (hsub.subset hc)
      have hwithin := htrail.isWithin hown
      have hordered := ih (pairwise_leftOf hsub) hown fun c hc =>
        htree.of_mem_children (mem_children_node (hsub.subset hc))
      obtain ⟨hopens, hopened⟩ := hopening.announces
      rw [raisedIn_append, raisedIn_append]
      refine List.pairwise_append.mpr ⟨List.pairwise_append.mpr ⟨hopened, hordered, ?_⟩,
        hclosing.raised.pairwise, ?_⟩
      · intro a ha b hb
        obtain ⟨hnode, hturn⟩ := hopens a ha
        obtain ⟨c, hc, hwithin⟩ := hwithin b hb
        exact hwithin.announced (hsub.subset hc) ho hnode hturn
      · intro a ha b hb
        have hcloses := hclosing.raised.closes hb
        rcases List.mem_append.mp ha with ha | ha
        · obtain ⟨hnode, hturn⟩ := hopens a ha
          exact hcloses.announced ho hnode hturn
        · obtain ⟨c, hc, hwithin⟩ := hwithin a ha
          exact hcloses.after ho htree.here (hsub.subset hc) hwithin

/-- In a list in which everything precedes what follows it, whatever precedes something is followed by
it. -/
theorem lt_iff_of_pairwise {α : Type} {R : α → α → Prop} {l : List α} (hasymm : ∀ a b, R a b → ¬ R b a)
    (h : l.Pairwise R) {i j : ℕ} {a b : α} (ha : l[i]? = some a) (hb : l[j]? = some b) :
    i < j ↔ R a b := by
  have hordered {i j : ℕ} {a b : α} (ha : l[i]? = some a) (hb : l[j]? = some b) (hij : i < j) : R a b := by
    obtain ⟨hi, rfl⟩ := List.getElem?_eq_some_iff.mp ha
    obtain ⟨hj, rfl⟩ := List.getElem?_eq_some_iff.mp hb
    exact List.pairwise_iff_getElem.mp h i j hi hj hij
  refine ⟨hordered ha hb, fun hR => ?_⟩
  rcases Nat.lt_trichotomy i j with hij | rfl | hji
  · exact hij
  · rw [ha] at hb
    cases hb
    exact absurd hR (hasymm _ _ hR)
  · exact absurd hR (hasymm _ _ (hordered hb ha hji))

end

open Run Session

namespace Checker

variable {ι μ : Type} [DecidableEq ι] (c : Checker ι μ)

/-- Whatever the extensions do, and however it ends: during a visit of a file whose nodes stand as they
are written, no hook is used for a node twice, and of two uses of hooks the one comes first that precedes
the other in the tree. -/
theorem visitFile_inOrder (file : SourceFile) (h : file.root.AsWritten) (s : SessionState ι μ) :
    ∃ entered, ((c.visitFile file).after s).journal.toList = s.journal.toList ++ entered ∧
      let calls := raisedIn entered
      (∀ a ∈ calls, a.node?.isSome) ∧
      (calls.map fun a => (a.hook, a.node?.map (·.id))).Nodup ∧
      ∀ (i j : ℕ) a b, calls[i]? = some a → calls[j]? = some b → (i < j ↔ a.Precedes b) := by
  obtain ⟨entered, rest, -, hgrown, htrail, -⟩ := (c.visitFile_unfolds file).exists_beginning s
  have hself := fun top htop => mem_lineage_self (c := top) (o := file.rootOccurrence) htop
  have hwithin := htrail.isWithin hself
  have hordered := htrail.pairwise_precedes (pairwise_leftOf (List.Sublist.refl _)) hself
    fun top htop => h.of_mem_children (mem_children_node htop)
  rw [raisedIn_append] at hwithin hordered
  have hbeginning : (raisedIn entered).Pairwise HookCall.Precedes := (List.pairwise_append.mp hordered).1
  refine ⟨entered, hgrown, fun a ha => ?_, ?_, fun i j a b ha hb => ?_⟩
  · obtain ⟨top, -, n, hnode, -⟩ := hwithin a (List.mem_append_left _ ha)
    rw [hnode]
    rfl
  · refine List.pairwise_map.mpr (hbeginning.imp fun hab hsame => ?_)
    obtain ⟨hhook, hid⟩ := Prod.mk.inj hsame
    have hlt := hab.place_lt
    rw [HookCall.place, HookCall.place, hhook, hid] at hlt
    exact lt_irrefl _ hlt
  · exact lt_iff_of_pairwise (fun _ _ hab => hab.asymm) hbeginning ha hb

end Checker

/-- An arrow function that returns the result of a call, where another type is expected. -/
def returnedCall : SourceFile :=
  let argument : Node :=
    .mk { role := .argument, kind := .identifier, start := 11, stop := 15, hasSymbol := false } []
  let call : Node :=
    .mk { role := .body, kind := .callExpression, start := 6, stop := 16 }
      [.bare .identifier .expression, argument]
  let arrow : Node :=
    .mk { role := .other "statements*", kind := .arrowFunction, start := 0, stop := 16 } [call]
  { number := 0, name := "arrow.ts", text := "", root := .bare .sourceFile (.other "") [arrow],
    reports := [⟨notAssignable, some 0, some 6⟩] }

/-- An extension that leaves everything as it is. -/
def indifferent : Checker Unit Unit where
  extensions := [.done ()]
  behaviour _ call := Behaviour.neutral call
  label _ := .anonymous
  limit := 1

/-- The call is announced, its argument comes next, and last the return of its result. -/
theorem visitFile_inOrder_returnedCall :
    let calls := raisedIn ((indifferent.visitFile returnedCall).after { memory := () }).journal.toList
    returnedCall.root.AsWritten ∧
      calls.map (·.hook) = [.beforeMethodCall, .unresolvedVariable, .afterMethodCall, .incompatibleReturn] ∧
      (calls.map fun a => (a.hook, a.node?.map (·.id))).Nodup ∧
      ∀ (i j : ℕ) a b, calls[i]? = some a → calls[j]? = some b → (i < j ↔ a.Precedes b) := by
  have hwritten : returnedCall.root.AsWritten := by decide
  obtain ⟨entered, hgrown, -, hnodup, hordered⟩ :=
    indifferent.visitFile_inOrder returnedCall hwritten { memory := () }
  obtain rfl : ((indifferent.visitFile returnedCall).after { memory := () }).journal.toList = entered :=
    hgrown
  exact ⟨hwritten, by decide +kernel, hnodup, hordered⟩

end ExtensibleCheck
