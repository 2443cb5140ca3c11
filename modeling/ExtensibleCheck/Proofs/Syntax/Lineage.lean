import ExtensibleCheck.Syntax.Occurrence
import Mathlib.Data.List.Nodup

/-! Where a node stands: the chain of nodes from it up to the outermost ones of its file. The root is
left out, since it stands for the file and is never visited itself. -/

namespace ExtensibleCheck

/-- A node of which nothing is known but its kind, its role and its children. -/
def Node.bare (kind : Kind) (role : Role) (children : List Node := []) : Node :=
  .mk { role, kind, start := 0, stop := 0 } children

namespace Occurrence

/-- A node with what stands above it, and the same for its parent and so on. -/
def lineageOf (file : SourceFile) (node : Node) : List Ancestor → List Occurrence
  | [] => []
  | a :: above => ⟨file, node, a :: above⟩ :: lineageOf file a.node above

/-- The node and the nodes above it, from the inside out. -/
def lineage (o : Occurrence) : List Occurrence := lineageOf o.file o.node o.above

/-- The nodes above a node, its parent first. -/
def ancestors (o : Occurrence) : List Occurrence := (o.parent?.map lineage).getD []

/-- Whether the node is what a call calls. -/
def isCallee (o : Occurrence) : Bool :=
  o.node.role = .expression && o.ancestors.head?.any (·.kind = .callExpression)

variable {o c : Occurrence}

/-- The root of a file is not above anything. -/
@[simp] theorem lineage_rootOccurrence (file : SourceFile) : file.rootOccurrence.lineage = [] := rfl

theorem mem_children_iff :
    c ∈ o.children ↔
      ∃ child branch, o.node.children[branch]? = some child ∧ c = o.below child branch := by
  simp only [children, List.mem_map, Prod.exists, List.mk_mem_zipIdx_iff_getElem?]
  constructor
  · rintro ⟨child, branch, hget, rfl⟩
    exact ⟨child, branch, hget, rfl⟩
  · rintro ⟨child, branch, hget, rfl⟩
    exact ⟨child, branch, hget, rfl⟩

/-- No child stands twice among the children. -/
theorem nodup_children (o : Occurrence) : o.children.Nodup := by
  have hbranches : o.children.map (fun c => c.above.head?.map (·.branch)) =
      (List.range' 0 o.node.children.length).map some := by
    rw [← List.zipIdx_map_snd 0, children, List.map_map, List.map_map]
    rfl
  apply List.Nodup.of_map fun c => c.above.head?.map (·.branch)
  rw [hbranches]
  exact (List.nodup_range' ..).map fun _ _ => Option.some.inj

theorem file_of_mem_children (h : c ∈ o.children) : c.file = o.file := by
  obtain ⟨child, branch, -, rfl⟩ := mem_children_iff.mp h
  rfl

theorem ancestors_of_mem_children (h : c ∈ o.children) : c.ancestors = o.lineage := by
  obtain ⟨child, branch, -, rfl⟩ := mem_children_iff.mp h
  rfl

theorem lineage_of_mem_children (h : c ∈ o.children) : c.lineage = c :: o.lineage := by
  obtain ⟨child, branch, -, rfl⟩ := mem_children_iff.mp h
  rfl

theorem mem_lineage_self (h : c ∈ o.children) : c ∈ c.lineage := by
  rw [lineage_of_mem_children h]
  exact List.mem_cons_self

/-- Every node but the root of a file begins its own lineage. -/
theorem eq_of_head?_lineage (h : o.lineage.head? = some c) : c = o := by
  obtain ⟨file, node, above⟩ := o
  cases above with
  | nil => cases h
  | cons a above => exact (Option.some.inj h).symm

/-- A node that anything is above of, or that is outermost, comes first in its own lineage. -/
theorem head?_lineage_of_mem (h : c ∈ o.lineage) : o.lineage.head? = some o := by
  obtain ⟨file, node, above⟩ := o
  cases above with
  | nil => exact nomatch h
  | cons => rfl

theorem mem_children_of_child? {role : Role} (h : o.child? role = some c) : c ∈ o.children :=
  List.mem_of_find?_eq_some h

theorem role_of_child? {role : Role} (h : o.child? role = some c) : c.node.role = role := by
  simpa using List.find?_some h

/-- What a call calls is its callee. -/
theorem isCallee_of_child? {a : Occurrence} (ha : a ∈ o.lineage) (hkind : o.kind = .callExpression)
    (h : o.child? .expression = some c) : c.isCallee := by
  rw [isCallee, role_of_child? h, ancestors_of_mem_children (mem_children_of_child? h),
    head?_lineage_of_mem ha, Option.any_some, hkind]
  rfl

theorem file_of_child? {role : Role} (h : o.child? role = some c) : c.file = o.file :=
  file_of_mem_children (mem_children_of_child? h)

theorem mem_lineage_of_mem_ancestors {a : Occurrence} (h : a ∈ o.ancestors) : a ∈ o.lineage := by
  obtain ⟨file, node, above⟩ := o
  cases above with
  | nil => exact nomatch h
  | cons first above => exact List.mem_cons_of_mem _ h

theorem eq_or_mem_ancestors {a : Occurrence} (h : a ∈ o.lineage) : a = o ∨ a ∈ o.ancestors := by
  obtain ⟨file, node, above⟩ := o
  cases above with
  | nil => exact nomatch h
  | cons first above => exact List.mem_cons.mp h

/-- What stands above a node of the lineage is the outer part of what stands above the node. -/
theorem suffix_of_mem_lineage {a : Occurrence} (h : a ∈ o.lineage) :
    a.lineage <:+ o.lineage ∧ a.above <:+ o.above ∧ a.file = o.file := by
  obtain ⟨file, node, above⟩ := o
  induction above generalizing node with
  | nil => exact nomatch h
  | cons first above ih =>
      rcases List.mem_cons.mp h with rfl | h
      · exact ⟨List.suffix_rfl, List.suffix_rfl, rfl⟩
      · obtain ⟨hlineage, habove, hfile⟩ := ih first.node h
        exact ⟨hlineage.trans (List.suffix_cons _ _), habove.trans (List.suffix_cons _ _), hfile⟩

/-- Nodes below different children of one node have different addresses. -/
theorem eq_of_mem_children_of_mem_lineage {c c' n n' : Occurrence} (hc : c ∈ o.children)
    (hc' : c' ∈ o.children) (hn : c ∈ n.lineage) (hn' : c' ∈ n'.lineage) (hid : n.id = n'.id) :
    c = c' := by
  have hpath := (suffix_of_mem_lineage hn).2.1.map (·.branch)
  have hpath' := (suffix_of_mem_lineage hn').2.1.map (·.branch)
  have hsame : n.above.map (·.branch) = n'.above.map (·.branch) := congrArg NodeId.path hid
  rw [← hsame] at hpath'
  obtain ⟨child, branch, hget, rfl⟩ := mem_children_iff.mp hc
  obtain ⟨child', branch', hget', rfl⟩ := mem_children_iff.mp hc'
  have hbranches := List.IsSuffix.eq_of_length
    (List.suffix_of_suffix_length_le hpath hpath' (by simp [below])) (by simp [below])
  obtain rfl : branch = branch' := by simpa [below] using hbranches
  rw [hget] at hget'
  rw [Option.some.inj hget']

theorem id_ne_of_length_above_ne {a : Occurrence} (h : a.above.length ≠ o.above.length) :
    a.id ≠ o.id := by
  intro hid
  apply h
  simpa [id] using congrArg (fun id => id.path.length) hid

theorem id_ne_of_mem_lineage {n : Occurrence} (hc : c ∈ o.children) (hn : c ∈ n.lineage) :
    o.id ≠ n.id := by
  refine id_ne_of_length_above_ne (Nat.ne_of_lt ?_)
  obtain ⟨child, branch, -, rfl⟩ := mem_children_iff.mp hc
  exact (suffix_of_mem_lineage hn).2.1.length_le

/-- The ways down to two nodes, of which one is above the other, differ in length. -/
theorem length_above_lt_of_mem_ancestors {a : Occurrence} (h : a ∈ o.ancestors) :
    a.above.length < o.above.length := by
  obtain ⟨file, node, above⟩ := o
  cases above with
  | nil => exact nomatch h
  | cons first above =>
      have hparent : a ∈ lineage ⟨file, first.node, above⟩ := h
      exact Nat.lt_succ_of_le (suffix_of_mem_lineage hparent).2.1.length_le

theorem id_ne_of_mem_ancestors {a : Occurrence} (h : a ∈ o.ancestors) : a.id ≠ o.id :=
  id_ne_of_length_above_ne (Nat.ne_of_lt (length_above_lt_of_mem_ancestors h))

section

variable {file : SourceFile} {above : List Ancestor}

theorem mem_preorderOf_self (node : Node) : ⟨file, node, above⟩ ∈ preorderOf file above node := by
  cases node
  exact List.mem_cons_self

/-- A child comes up below its parent. -/
theorem mem_preorderAmong_of_getElem? {parent child : Node} {nodes : List Node} {start offset : Nat}
    (h : nodes[offset]? = some child) :
    ⟨file, child, ⟨parent, start + offset⟩ :: above⟩ ∈ preorderAmong file parent above start nodes := by
  induction nodes generalizing start offset with
  | nil => cases h
  | cons first rest ih =>
      rw [preorderAmong]
      cases offset with
      | zero =>
          obtain rfl : first = child := Option.some.inj h
          exact List.mem_append_left _ (mem_preorderOf_self first)
      | succ offset =>
          have hbranch : start + (offset + 1) = start + 1 + offset := by omega
          rw [hbranch]
          exact List.mem_append_right _ (ih h)

mutual

/-- Whatever stands at a node or below it is in the same file, and its children stand there too. -/
theorem mem_preorderOf_of_mem_children : ∀ {node : Node} {above : List Ancestor} {o : Occurrence},
    o ∈ preorderOf file above node → o.file = file ∧ ∀ c ∈ o.children, c ∈ preorderOf file above node
  | .mk info children, above, o, ho => by
    rw [preorderOf] at ho ⊢
    rcases List.mem_cons.mp ho with rfl | ho
    · refine ⟨rfl, fun c hc => List.mem_cons_of_mem _ ?_⟩
      obtain ⟨child, branch, hget, rfl⟩ := mem_children_iff.mp hc
      have hchild : (⟨file, child, ⟨.mk info children, 0 + branch⟩ :: above⟩ : Occurrence) ∈
          preorderAmong file (.mk info children) above 0 children :=
        mem_preorderAmong_of_getElem? hget
      rwa [Nat.zero_add] at hchild
    · obtain ⟨hfile, hbelow⟩ := mem_preorderAmong_of_mem_children ho
      exact ⟨hfile, fun c hc => List.mem_cons_of_mem _ (hbelow c hc)⟩

theorem mem_preorderAmong_of_mem_children : ∀ {nodes : List Node} {parent : Node}
    {above : List Ancestor} {start : Nat} {o : Occurrence},
    o ∈ preorderAmong file parent above start nodes →
      o.file = file ∧ ∀ c ∈ o.children, c ∈ preorderAmong file parent above start nodes
  | [], _, _, _, _, ho => nomatch ho
  | first :: rest, parent, above, start, o, ho => by
    rw [preorderAmong] at ho ⊢
    rcases List.mem_append.mp ho with ho | ho
    · obtain ⟨hfile, hbelow⟩ := mem_preorderOf_of_mem_children ho
      exact ⟨hfile, fun c hc => List.mem_append_left _ (hbelow c hc)⟩
    · obtain ⟨hfile, hbelow⟩ := mem_preorderAmong_of_mem_children ho
      exact ⟨hfile, fun c hc => List.mem_append_right _ (hbelow c hc)⟩

end

end

end Occurrence

namespace SourceFile

variable {file : SourceFile} {o c : Occurrence}

theorem rootOccurrence_mem_occurrences (file : SourceFile) : file.rootOccurrence ∈ file.occurrences :=
  Occurrence.mem_preorderOf_self file.root

theorem file_of_mem_occurrences (h : o ∈ file.occurrences) : o.file = file :=
  (Occurrence.mem_preorderOf_of_mem_children h).1

theorem mem_occurrences_of_mem_children (h : o ∈ file.occurrences) (hc : c ∈ o.children) :
    c ∈ file.occurrences :=
  (Occurrence.mem_preorderOf_of_mem_children h).2 c hc

end SourceFile

end ExtensibleCheck
