import ExtensibleCheck.Proofs.Syntax.Owners
import Mathlib.Logic.Relation

/-! Which positions are reported within a node. The functions and classes below a node are looked for only
down to the outermost ones on every way, but in a tree whose nodes lie within their parents none further
down is missed. -/

namespace ExtensibleCheck.Node

/-- Whether a node stands below another one, at any depth. -/
def IsBelow (d n : Node) : Prop := Relation.TransGen (fun child parent => child ∈ parent.children) d n

variable {n d e : Node}

theorem isBelow_of_mem_children (h : d ∈ n.children) : d.IsBelow n := .single h

mutual

theorem isBelow_or_eq_of_mem_preorder : ∀ {n : Node}, d ∈ n.preorder → d = n ∨ d.IsBelow n
  | .mk info children, h => by
    rw [preorder] at h
    rcases List.mem_cons.mp h with rfl | h
    · exact Or.inl rfl
    · obtain ⟨child, hchild, hbelow⟩ := exists_of_mem_preorderAmong h
      have hhere : child.IsBelow (.mk info children) := isBelow_of_mem_children hchild
      rcases hbelow with rfl | hbelow
      · exact Or.inr hhere
      · exact Or.inr (hbelow.trans hhere)

theorem exists_of_mem_preorderAmong : ∀ {nodes : List Node}, d ∈ preorderAmong nodes →
    ∃ n ∈ nodes, d = n ∨ d.IsBelow n
  | [], h => nomatch h
  | n :: rest, h => by
    rw [preorderAmong] at h
    rcases List.mem_append.mp h with h | h
    · exact ⟨n, List.mem_cons_self, isBelow_or_eq_of_mem_preorder h⟩
    · obtain ⟨m, hm, hbelow⟩ := exists_of_mem_preorderAmong h
      exact ⟨m, List.mem_cons_of_mem n hm, hbelow⟩

end

/-- The nodes that are listed below a node are those that are reached from it by going from parents to
their children. -/
theorem mem_descendants_iff : d ∈ n.descendants ↔ d.IsBelow n := by
  constructor
  · intro h
    obtain ⟨child, hchild, hbelow⟩ := exists_of_mem_preorderAmong h
    rcases hbelow with rfl | hbelow
    · exact isBelow_of_mem_children hchild
    · exact hbelow.trans (isBelow_of_mem_children hchild)
  · intro h
    induction h with
    | single hchild => exact mem_preorderAmong.mpr ⟨d, hchild, mem_preorder_self d⟩
    | @tail m n _ hchild ih =>
        have hmem : d ∈ m.preorder := preorder_eq m ▸ List.mem_cons_of_mem m ih
        exact mem_preorderAmong.mpr ⟨m, hchild, hmem⟩

theorem mem_preorder_iff : d ∈ n.preorder ↔ d = n ∨ d.IsBelow n := by
  rw [preorder_eq, List.mem_cons, mem_descendants_iff]

theorem mem_preorder_trans (he : e ∈ d.preorder) (hd : d ∈ n.preorder) : e ∈ n.preorder := by
  rcases mem_preorder_iff.mp hd with rfl | hd
  · exact he
  · refine mem_preorder_iff.mpr (Or.inr ?_)
    rcases mem_preorder_iff.mp he with rfl | he
    · exact hd
    · exact he.trans hd

/-- A part of a tree whose nodes lie within their parents is such a tree as well. -/
theorem WellNested.of_mem_preorder (h : n.WellNested) (hd : d ∈ n.preorder) : d.WellNested :=
  fun parent hparent => h parent (mem_preorder_trans hparent hd)

theorem reportsWithin_append (n : Node) (positions positions' : List Int) :
    n.reportsWithin (positions ++ positions') =
      (n.reportsWithin positions || n.reportsWithin positions') := List.any_append

/-- It matters which positions are given, but neither in what order nor how often. -/
theorem reportsWithin_congr (n : Node) {positions positions' : List Int}
    (h : ∀ position, position ∈ positions ↔ position ∈ positions') :
    n.reportsWithin positions = n.reportsWithin positions' := by
  rw [Bool.eq_iff_iff, reportsWithin, reportsWithin, List.any_eq_true, List.any_eq_true]
  exact exists_congr fun position => and_congr_left' (h position)

/-- No function and no class below a node holds a position, whatever its depth. -/
theorem holds_iff {position : Int} : n.Holds position ↔
    (n.start ≤ position ∧ position < n.stop) ∧ ∀ d : Node, d.IsBelow n →
      d.kind.isFunctionLike ∨ d.kind.isClassLike → ¬(d.start ≤ position ∧ position < d.stop) := by
  rw [Holds, covers_iff]
  refine and_congr_right fun _ => forall_congr' fun d => ?_
  rw [mem_descendants_iff, Kind.isOwner, Bool.or_eq_true, ← covers_iff, Bool.not_eq_true]

/-- Anywhere in a tree whose nodes lie within their parents, some of the given positions are reported
within a node if and only if one of them is at the start of the node or behind it, lies before its end,
and does so for no function and no class below the node, however deep. So lists of positions can be put
together, put in another order and freed of repetitions. -/
theorem WellNested.reportsWithin_unowned {tree : Node} (h : tree.WellNested) :
    ∀ n ∈ tree.preorder,
      (∀ positions : List Int, n.reportsWithin positions ↔ ∃ position ∈ positions,
        (n.start ≤ position ∧ position < n.stop) ∧ ∀ d : Node, d.IsBelow n →
          d.kind.isFunctionLike ∨ d.kind.isClassLike → ¬(d.start ≤ position ∧ position < d.stop)) ∧
      (∀ positions positions', n.reportsWithin (positions ++ positions') =
        (n.reportsWithin positions || n.reportsWithin positions')) ∧
      ∀ positions positions' : List Int, (∀ position, position ∈ positions ↔ position ∈ positions') →
        n.reportsWithin positions = n.reportsWithin positions' := by
  intro n hn
  refine ⟨fun positions => ?_, n.reportsWithin_append, fun _ _ => n.reportsWithin_congr⟩
  rw [reportsWithin_iff (h.of_mem_preorder hn)]
  exact exists_congr fun position => and_congr_right fun _ => holds_iff

/-- A callback with a class in it: `run(() => { class A { m() { stray; } } }); rest;`. -/
def nestedCallback : Node :=
  let method : Node := .mk { role := .other "members*", kind := .methodDeclaration, start := 22, stop := 36 } []
  let inner : Node :=
    .mk { role := .other "statements*", kind := .classDeclaration, start := 12, stop := 38 } [method]
  let body : Node := .mk { role := .body, kind := .block, start := 10, stop := 40 } [inner]
  let callback : Node := .mk { role := .argument, kind := .arrowFunction, start := 4, stop := 40 } [body]
  let call : Node := .mk { role := .expression, kind := .callExpression, start := 0, stop := 41 } [callback]
  let statement : Node :=
    .mk { role := .other "statements*", kind := .other "ExpressionStatement", start := 0, stop := 42 } [call]
  .mk { role := .other "", kind := .sourceFile, start := 0, stop := 48 } [statement]

/-- What is reported in the method belongs to neither the class nor the file. The callback owns the position
at which it begins, but no longer the one at which it ends. -/
theorem reportsWithin_unowned_nestedCallback :
    nestedCallback.WellNested ∧ nestedCallback ∈ nestedCallback.preorder ∧
      nestedCallback.reportsWithin [4, 22, 28, 39, 48] = false ∧
      nestedCallback.reportsWithin [40, 28, 40] = true ∧
      ∃ position ∈ ([28] ++ [40] : List Int), ∀ d : Node, d.IsBelow nestedCallback →
        d.kind.isFunctionLike ∨ d.kind.isClassLike → ¬(d.start ≤ position ∧ position < d.stop) := by
  have hnested : nestedCallback.WellNested := by decide
  have hself : nestedCallback ∈ nestedCallback.preorder := mem_preorder_self _
  obtain ⟨hiff, happend, hcongr⟩ := hnested.reportsWithin_unowned nestedCallback hself
  have hend : nestedCallback.reportsWithin ([28] ++ [40]) = true := by
    rw [happend]
    decide
  have hsame : nestedCallback.reportsWithin [40, 28, 40] = nestedCallback.reportsWithin ([28] ++ [40]) := by
    refine hcongr _ _ fun position => ?_
    simp only [List.mem_append, List.mem_cons, List.not_mem_nil, or_false]
    omega
  obtain ⟨position, hposition, -, hunowned⟩ := (hiff _).mp hend
  exact ⟨hnested, hself, by decide, hsame.trans hend, position, hposition, hunowned⟩

end ExtensibleCheck.Node
