import ExtensibleCheck.Syntax.Node
import Mathlib.Data.List.Pairwise

/-! Which functions and classes a position falls on. Only the outermost ones inside a node are looked
at. Where every node lies within its parent, as in a tree that was read from a text, these decide it
for all of them, however deep they are. -/

namespace ExtensibleCheck.Node

mutual

/-- The node and all nodes below it, each before its children. -/
def preorder : Node → List Node
  | .mk info children => .mk info children :: preorderAmong children

def preorderAmong : List Node → List Node
  | [] => []
  | n :: rest => n.preorder ++ preorderAmong rest

end

/-- All nodes below a node. -/
def descendants (n : Node) : List Node := preorderAmong n.children

/-- A node lies within its parent, unless it covers no position at all. -/
def LiesIn (child parent : Node) : Prop :=
  child.start < child.stop → parent.start ≤ child.start ∧ child.stop ≤ parent.stop

instance (child parent : Node) : Decidable (child.LiesIn parent) :=
  inferInstanceAs (Decidable (_ → _))

/-- From the node downward, every node lies within its parent. -/
def WellNested (n : Node) : Prop :=
  ∀ parent ∈ n.preorder, ∀ child ∈ parent.children, child.LiesIn parent

instance (n : Node) : Decidable n.WellNested :=
  inferInstanceAs (Decidable (∀ parent ∈ n.preorder, ∀ child ∈ parent.children, _))

/-- From the node downward, no two children of one node overlap. -/
def SiblingsApart (n : Node) : Prop :=
  ∀ parent ∈ n.preorder, parent.children.Pairwise fun c c' => c.stop ≤ c'.start ∨ c'.stop ≤ c.start

instance (n : Node) : Decidable n.SiblingsApart :=
  inferInstanceAs (Decidable (∀ parent ∈ n.preorder, parent.children.Pairwise _))

/-- A position falls on the node, but on no function or class below it. -/
def Holds (n : Node) (position : Int) : Prop :=
  n.covers position ∧ ∀ d ∈ n.descendants, d.kind.isOwner → d.covers position = false

instance (n : Node) (position : Int) : Decidable (n.Holds position) :=
  inferInstanceAs (Decidable (_ ∧ ∀ d ∈ n.descendants, _ → _))

variable {n d : Node} {position : Int}

theorem preorder_eq (n : Node) : n.preorder = n :: n.descendants := by
  obtain ⟨info, children⟩ := n
  rw [preorder]
  rfl

theorem mem_preorderAmong {nodes : List Node} :
    d ∈ preorderAmong nodes ↔ ∃ n ∈ nodes, d ∈ n.preorder := by
  induction nodes with
  | nil => simp [preorderAmong]
  | cons n nodes ih => simp [preorderAmong, ih]

theorem mem_preorder_self (n : Node) : n ∈ n.preorder := by
  rw [preorder_eq]
  exact List.mem_cons_self

theorem WellNested.of_mem_children (h : n.WellNested) (hd : d ∈ n.children) : d.WellNested := by
  intro parent hparent
  apply h
  rw [preorder_eq]
  exact List.mem_cons_of_mem _ (mem_preorderAmong.mpr ⟨d, hd, hparent⟩)

theorem SiblingsApart.of_mem_children (h : n.SiblingsApart) (hd : d ∈ n.children) :
    d.SiblingsApart := by
  intro parent hparent
  apply h
  rw [preorder_eq]
  exact List.mem_cons_of_mem _ (mem_preorderAmong.mpr ⟨d, hd, hparent⟩)

theorem covers_iff : n.covers position ↔ n.start ≤ position ∧ position < n.stop := by
  rw [covers, Bool.and_eq_true, decide_eq_true_iff, decide_eq_true_iff]

theorem WellNested.covers_of_mem_children (h : n.WellNested) (hd : d ∈ n.children)
    (hcovers : d.covers position) : n.covers position := by
  have hlies := h n (mem_preorder_self n) d hd
  rw [covers_iff] at hcovers ⊢
  have hbounds := hlies (Int.lt_of_le_of_lt hcovers.1 hcovers.2)
  omega

mutual

/-- What falls on a node falls on every node around it. -/
theorem covers_of_mem_preorder : ∀ {n : Node}, n.WellNested → d ∈ n.preorder →
    d.covers position → n.covers position
  | .mk info children, h, hd, hcovers => by
    rw [preorder_eq] at hd
    rcases List.mem_cons.mp hd with rfl | hd
    · exact hcovers
    · obtain ⟨child, hchild, hcovers⟩ :=
        covers_of_mem_preorderAmong (fun _ hchild => h.of_mem_children hchild) hd hcovers
      exact h.covers_of_mem_children hchild hcovers

theorem covers_of_mem_preorderAmong : ∀ {nodes : List Node}, (∀ n ∈ nodes, n.WellNested) →
    d ∈ preorderAmong nodes → d.covers position → ∃ n ∈ nodes, n.covers position
  | [], _, hd, _ => nomatch hd
  | n :: rest, h, hd, hcovers => by
    rcases List.mem_append.mp hd with hd | hd
    · exact ⟨n, List.mem_cons_self, covers_of_mem_preorder (h n List.mem_cons_self) hd hcovers⟩
    · obtain ⟨m, hm, hcovers⟩ := covers_of_mem_preorderAmong
        (fun m hm => h m (List.mem_cons_of_mem n hm)) hd hcovers
      exact ⟨m, List.mem_cons_of_mem n hm, hcovers⟩

end

mutual

/-- One of the outermost functions and classes covers a position if any does. -/
theorem any_owners_iff : ∀ {n : Node}, n.WellNested →
    (n.owners.any (·.covers position) ↔
      ∃ d ∈ n.preorder, d.kind.isOwner ∧ d.covers position)
  | .mk info children, h => by
    rw [owners, preorder_eq]
    by_cases howner : info.kind.isOwner = true
    · rw [if_pos howner, List.any_cons, List.any_nil, Bool.or_false]
      constructor
      · intro hcovers
        exact ⟨_, List.mem_cons_self, howner, hcovers⟩
      · rintro ⟨d, hd, -, hcovers⟩
        exact covers_of_mem_preorder h (preorder_eq _ ▸ hd) hcovers
    · have hbelow : ∀ child ∈ children, child.WellNested := fun _ hchild => h.of_mem_children hchild
      rw [if_neg howner, any_ownersAmong_iff hbelow]
      constructor
      · rintro ⟨d, hd, hcovers⟩
        exact ⟨d, List.mem_cons_of_mem _ hd, hcovers⟩
      · rintro ⟨d, hd, hself, hcovers⟩
        rcases List.mem_cons.mp hd with rfl | hd
        · exact absurd hself howner
        · exact ⟨d, hd, hself, hcovers⟩

theorem any_ownersAmong_iff : ∀ {nodes : List Node}, (∀ n ∈ nodes, n.WellNested) →
    ((ownersAmong nodes).any (·.covers position) ↔
      ∃ d ∈ preorderAmong nodes, d.kind.isOwner ∧ d.covers position)
  | [], _ => by simp [ownersAmong, preorderAmong]
  | n :: rest, h => by
    rw [ownersAmong, preorderAmong, List.any_append, Bool.or_eq_true,
      any_owners_iff (h n List.mem_cons_self),
      any_ownersAmong_iff fun m hm => h m (List.mem_cons_of_mem n hm)]
    simp only [List.mem_append, or_and_right, exists_or]

end

/-- Of two children of a node, only one is fallen on. -/
theorem SiblingsApart.eq_of_covers (h : n.SiblingsApart) {c c' : Node} (hc : c ∈ n.children)
    (hc' : c' ∈ n.children) (hcovers : c.covers position) (hcovers' : c'.covers position) : c = c' := by
  by_contra hne
  have hsymm : Std.Symm fun c c' : Node => c.stop ≤ c'.start ∨ c'.stop ≤ c.start :=
    ⟨fun _ _ h => h.symm⟩
  have hapart := (h n (mem_preorder_self n)).forall hc hc' hne
  rw [covers_iff] at hcovers hcovers'
  omega

/-- What a child that is no function or class holds, its parent holds as well. -/
theorem Holds.of_mem_children (hnested : n.WellNested) (hapart : n.SiblingsApart) (hd : d ∈ n.children)
    (hother : d.kind.isOwner = false) (h : d.Holds position) : n.Holds position := by
  refine ⟨hnested.covers_of_mem_children hd h.1, fun e he howner => ?_⟩
  obtain ⟨c, hc, hbelow⟩ := mem_preorderAmong.mp he
  refine Bool.eq_false_iff.mpr fun hcovers => ?_
  -- Only the child itself can be fallen on, and the functions and classes below it are not.
  have hchild : c.covers position := covers_of_mem_preorder (hnested.of_mem_children hc) hbelow hcovers
  obtain rfl := hapart.eq_of_covers hc hd hchild h.1
  rw [preorder_eq] at hbelow
  rcases List.mem_cons.mp hbelow with rfl | hbelow
  · rw [hother] at howner
    cases howner
  · rw [h.2 e hbelow howner] at hcovers
    cases hcovers

/-- A position is reported within a node if it falls on the node, but on no function or class that
stands below it. -/
theorem reportsWithin_iff (h : n.WellNested) (positions : List Int) :
    n.reportsWithin positions ↔ ∃ position ∈ positions, n.Holds position := by
  rw [reportsWithin, List.any_eq_true]
  refine exists_congr fun position => and_congr_right fun _ => ?_
  rw [Bool.and_eq_true, Bool.not_eq_true', ← Bool.not_eq_true, nestedOwners,
    any_ownersAmong_iff fun _ hchild => h.of_mem_children hchild]
  refine and_congr_right fun _ => ?_
  constructor
  · intro hnone d hd howner
    exact Bool.eq_false_iff.mpr fun hcovers => hnone ⟨d, hd, howner, hcovers⟩
  · rintro hnone ⟨d, hd, howner, hcovers⟩
    rw [hnone d hd howner] at hcovers
    cases hcovers

end ExtensibleCheck.Node
