import ExtensibleCheck.Proofs.Syntax.Lineage
import ExtensibleCheck.Proofs.Syntax.Owners
import Mathlib.Data.List.Lex

/-! From left to right, and from the top down. Of two children of one node one stands to the left of the
other. In a tree that was read from a text they stand as they are written there, what is called before
the arguments and so on. The ways down from the root, compared step by step, say where in this order a
node stands. -/

namespace ExtensibleCheck

/-- Whether a child that plays one role may stand before one that plays another, in a node of the kind. -/
def Kind.allows (k : Kind) (earlier later : Role) : Bool :=
  match k with
  | .callExpression | .newExpression => !(earlier = .argument && later = .expression)
  | .elementAccess => !(earlier = .argumentExpression && later = .expression)
  | .shorthandProperty => !(earlier = .shorthandDefault && later = .name)
  | .arrowFunction => earlier ≠ .body
  | _ => true

namespace Node

/-- The children stand as they are written, and no arrow function has a statement for its body that
returns something itself. -/
def ListsAsWritten (n : Node) : Prop :=
  n.children.Pairwise (fun c c' => n.kind.allows c.role c'.role) ∧
    (n.kind = .arrowFunction → ∀ c ∈ n.children, c.role = .body → c.kind ≠ .returnStatement)

/-- From the node downward, the children of every node stand as they are written. -/
def AsWritten (n : Node) : Prop := ∀ d ∈ n.preorder, d.ListsAsWritten

instance (n : Node) : Decidable n.ListsAsWritten := inferInstanceAs (Decidable (_ ∧ _))

instance (n : Node) : Decidable n.AsWritten :=
  inferInstanceAs (Decidable (∀ d ∈ n.preorder, d.ListsAsWritten))

variable {n d : Node}

theorem AsWritten.here (h : n.AsWritten) : n.ListsAsWritten := h n (mem_preorder_self n)

theorem AsWritten.of_mem_children (h : n.AsWritten) (hd : d ∈ n.children) : d.AsWritten := by
  intro e he
  apply h
  rw [preorder_eq]
  exact List.mem_cons_of_mem _ (mem_preorderAmong.mpr ⟨d, hd, he⟩)

end Node

/-- Two parts of a list make up a sublist if the one part nowhere follows the other. -/
theorem filter_append_sublist {α : Type} {f g : α → Bool} {l : List α} (hdisjoint : ∀ a, f a → g a = false)
    (h : l.Pairwise fun a b => g a → f b = false) : (l.filter f ++ l.filter g).Sublist l := by
  induction l with
  | nil => exact List.nil_sublist _
  | cons a l ih =>
      obtain ⟨hfirst, hrest⟩ := List.pairwise_cons.mp h
      by_cases hf : f a
      · rw [List.filter_cons_of_pos hf, List.filter_cons_of_neg (by simp [hdisjoint a hf]), List.cons_append]
        exact (ih hrest).cons_cons a
      · rw [List.filter_cons_of_neg hf]
        by_cases hg : g a
        · have hnone : l.filter f = [] :=
            List.filter_eq_nil_iff.mpr fun b hb => by simp [hfirst b hb hg]
          rw [List.filter_cons_of_pos hg, hnone]
          exact List.filter_sublist.cons_cons a
        · rw [List.filter_cons_of_neg hg]
          exact (ih hrest).cons a

/-- The way down to a node, with a mark before every step. -/
def NodeId.way (id : NodeId) : List ℕ := id.path.reverse.flatMap ([1, ·])

namespace Occurrence

/-- Whether two nodes are children of one node, the first to the left of the second. -/
def LeftOf (c c' : Occurrence) : Prop := ∃ o : Occurrence, [c, c'].Sublist o.children

variable {o c c' n : Occurrence}

theorem pairwise_leftOf {nodes : List Occurrence} (h : nodes.Sublist o.children) :
    nodes.Pairwise LeftOf :=
  List.pairwise_iff_forall_sublist.mpr fun hboth => ⟨o, hboth.trans h⟩

theorem map_node_children (o : Occurrence) : o.children.map (·.node) = o.node.children := by
  rw [children, List.map_map]
  exact List.zipIdx_map_fst 0 _

theorem mem_children_node (h : c ∈ o.children) : c.node ∈ o.node.children := by
  rw [← map_node_children]
  exact List.mem_map_of_mem h

theorem pairwise_allows (h : o.node.ListsAsWritten) :
    o.children.Pairwise fun c c' => o.kind.allows c.node.role c'.node.role := by
  have hnodes := h.1
  rw [← map_node_children, List.pairwise_map] at hnodes
  exact hnodes

/-- Of two roles of which one may not stand before the other, the children stand in this order. -/
theorem withRole_append_sublist (h : o.node.ListsAsWritten) {role role' : Role} (hne : role ≠ role')
    (hallows : o.kind.allows role' role = false) :
    (o.withRole role ++ o.withRole role').Sublist o.children := by
  refine filter_append_sublist (fun c hc => ?_) ((pairwise_allows h).imp fun {c c'} hallowed hc => ?_)
  · rw [of_decide_eq_true hc]
    exact decide_eq_false hne
  · refine decide_eq_false fun hc' => ?_
    rw [of_decide_eq_true hc, hc', hallows] at hallowed
    cases hallowed

/-- The body of an arrow function stands behind all else. -/
theorem leftOf_body (h : o.node.ListsAsWritten) (hkind : o.kind = .arrowFunction) (hc : c ∈ o.children)
    {body : Occurrence} (hbody : o.child? .body = some body) (hne : c ≠ body) : c.LeftOf body := by
  have hrole : body.node.role = .body := by simpa using List.find?_some hbody
  have hallows := pairwise_allows h
  obtain ⟨before, after, hchildren⟩ := List.append_of_mem (mem_children_of_child? hbody)
  refine ⟨o, ?_⟩
  rw [hchildren] at hc hallows ⊢
  rcases List.mem_append.mp hc with hc | hc
  · exact (List.singleton_sublist.mpr hc).append (List.singleton_sublist.mpr List.mem_cons_self)
  · have hafter := (List.mem_cons.mp hc).resolve_left hne
    have hallowed := (List.pairwise_cons.mp (List.pairwise_append.mp hallows).2.1).1 c hafter
    rw [hkind, hrole] at hallowed
    cases hallowed

theorem LeftOf.exists_branches (h : c.LeftOf c') : ∃ (o : Occurrence) (child child' : Node) (i j : ℕ),
    c = o.below child i ∧ c' = o.below child' j ∧ i < j := by
  obtain ⟨o, hboth⟩ := h
  have hsorted : o.node.children.zipIdx.Pairwise fun x y => x.2 < y.2 := by
    rw [← List.pairwise_map (f := Prod.snd), List.zipIdx_map_snd]
    exact List.pairwise_lt_range'
  have hchildren : o.children.Pairwise fun c c' => ∃ (child child' : Node) (i j : ℕ),
      c = o.below child i ∧ c' = o.below child' j ∧ i < j :=
    List.pairwise_map.mpr (hsorted.imp fun hlt => ⟨_, _, _, _, rfl, rfl, hlt⟩)
  exact ⟨o, List.pairwise_iff_forall_sublist.mp hchildren hboth⟩

theorem way_below (child : Node) (branch : ℕ) : (o.below child branch).id.way = o.id.way ++ [1, branch] := by
  simp [NodeId.way, id, below]

theorem way_prefix_of_mem_lineage (h : c ∈ n.lineage) : c.id.way <+: n.id.way := by
  obtain ⟨before, hbefore⟩ := (suffix_of_mem_lineage h).2.1
  refine ⟨(before.map (·.branch)).reverse.flatMap ([1, ·]), ?_⟩
  rw [NodeId.way, NodeId.way, id, id, ← hbefore, List.map_append, List.reverse_append,
    List.flatMap_append]

/-- The way to a node is shorter by a step at least than those to the nodes below it. -/
theorem way_of_mem_ancestors (h : o ∈ n.ancestors) : ∃ rest, n.id.way = o.id.way ++ 1 :: rest := by
  obtain ⟨before, hbefore⟩ := (suffix_of_mem_lineage (mem_lineage_of_mem_ancestors h)).2.1
  have hlength := length_above_lt_of_mem_ancestors h
  rw [← hbefore] at hlength
  rcases List.eq_nil_or_concat before with rfl | ⟨before, last, rfl⟩
  · simp at hlength
  · refine ⟨last.branch :: (before.map (·.branch)).reverse.flatMap ([1, ·]), ?_⟩
    simp [NodeId.way, id, ← hbefore]

theorem mem_ancestors_of_mem_lineage (hc : c ∈ o.children) (hn : c ∈ n.lineage) (ho : o ∈ o.lineage) :
    o ∈ n.ancestors := by
  have habove : o ∈ c.lineage := lineage_of_mem_children hc ▸ List.mem_cons_of_mem _ ho
  rcases eq_or_mem_ancestors ((suffix_of_mem_lineage hn).1.subset habove) with rfl | ho
  · exact absurd rfl (id_ne_of_mem_lineage hc hn)
  · exact ho

end Occurrence

end ExtensibleCheck
