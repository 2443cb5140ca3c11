import ExtensibleCheck.Proofs.Walk.Shape
import ExtensibleCheck.Session.Check

/-! Classes, methods and calls are announced and taken leave of like opening and closing brackets. In
every run that ends, the brackets nest as the nodes do in the tree: whatever else the checker turns to
the extensions for happens between the brackets of exactly those nodes that stand around it. A node
that an extension takes over is left at once, and a method without a body is passed over in silence. -/

namespace ExtensibleCheck

/-- Whether a hook announces a node or takes leave of it. -/
def HookCall.isCrossing {ν τ : Type} : HookCall ν τ → Bool
  | .ask (.beforeVisitMethod _) | .ask (.beforeVisitClass _) | .ask (.beforeMethodCall _) => true
  | .notify (.afterVisitMethod _) | .notify (.afterVisitClass _) | .notify (.afterMethodCall _) => true
  | _ => false

/-- The announced nodes around the use of a hook, from the inside out. A call is resolved between its
own brackets; every other hook is used outside the brackets of its node. -/
def HookCall.announcedAround : HookCall Occurrence CheckedType → List Occurrence
  | .ask question => question.node.ancestors.filter Occurrence.isAnnounced
  | .narrow _ call | .contribute ⟨_, _, _, _, call⟩ | .notify (.methodSelection call _) =>
    call.lineage.filter Occurrence.isAnnounced
  | .notify (.afterVisitMethod node) | .notify (.afterVisitClass node)
  | .notify (.afterMethodCall node) => node.ancestors.filter Occurrence.isAnnounced
  | .notify .setup | .notify .finish => []

/-- Turns that the checker takes between the brackets of the nodes in `opened`, the innermost first. -/
inductive Bracketed {ι : Type} : List Occurrence → List (Event ι) → Prop
  | done {opened} : Bracketed opened []
  /-- A hook that is no bracket is used where the announced nodes around it are those opened. -/
  | use {opened call registry answer rest} : call.isCrossing = false →
      call.announcedAround = opened → Bracketed opened rest →
      Bracketed opened (.raised call registry :: .settled call answer :: rest)
  /-- A closure is asked for its extensions where the announced nodes around it are those opened. -/
  | closure {opened o extensions rest} : o.ancestors.filter Occurrence.isAnnounced = opened →
      Bracketed opened rest → Bracketed opened (.brought o extensions :: rest)
  /-- A node is announced where the announced nodes around it are those opened, and then left. If
  it was taken over, nothing comes between. -/
  | pair {opened o before after registry taken inner registry' rest} :
      o.announcement? = some (before, after) →
      o.ancestors.filter Occurrence.isAnnounced = opened → (taken = true → inner = []) →
      Bracketed (o :: opened) inner → Bracketed opened rest →
      Bracketed opened (.raised (.ask before) registry :: .settled (.ask before) taken ::
        (inner ++ .raised (.notify after) registry' :: .settled (.notify after) () :: rest))

/-- The node that a turn is about. -/
def Event.node? {ι : Type} : Event ι → Option Occurrence
  | raised call _ | settled call _ => call.node?
  | brought closure _ => some closure
  | _ => none

def Event.isCrossing {ι : Type} : Event ι → Bool
  | raised call _ | settled call _ => call.isCrossing
  | _ => false

def Event.announced? {ι : Type} : Event ι → Option Occurrence
  | raised call _ => call.announced?
  | _ => none

/-- Methods without a body are neither announced nor left, and nothing beneath them comes up. -/
def Event.SparesBodiless {ι : Type} (e : Event ι) : Prop :=
  ∀ o ∈ e.node?, (e.isCrossing → o.isBodiless = false) ∧ ∀ a ∈ o.ancestors, a.isBodiless = false

theorem Event.sparesBodiless_of_quiet {ι : Type} {e : Event ι} (h : e.isTurn = false) :
    e.SparesBodiless := by
  intro o ho
  cases e with
  | raised | settled | brought => cases h
  | _ => cases ho

namespace Bracketed

variable {ι : Type} {opened : List Occurrence}

/-- What comes one after the other between the same brackets can be joined. -/
theorem append {first rest : List (Event ι)} (hfirst : Bracketed opened first)
    (hrest : Bracketed opened rest) : Bracketed opened (first ++ rest) := by
  induction hfirst with
  | done => exact hrest
  | use hplain hplace _ ih => exact .use hplain hplace (ih hrest)
  | closure hplace _ ih => exact .closure hplace (ih hrest)
  | pair hannounced hplace htaken hinner _ _ ih =>
      rw [List.cons_append, List.cons_append, List.append_assoc]
      exact .pair hannounced hplace htaken hinner (ih hrest)

end Bracketed

namespace Occurrence

variable {o : Occurrence}

theorem announcedLineage_of_not {p : Occurrence → Bool} (h : p o = false) :
    o.lineage.filter p = o.ancestors.filter p := by
  obtain ⟨file, node, above⟩ := o
  cases above with
  | nil => rfl
  | cons a above =>
      show List.filter p (_ :: ancestors ⟨file, node, a :: above⟩) = _
      rw [List.filter_cons_of_neg (by rw [h]; exact Bool.false_ne_true)]

/-- A node is announced exactly if its treatment calls for it. -/
theorem isAnnounced_of_treatment (h : o.treatment ∉ [.classLike, .methodLike, .call]) :
    o.isAnnounced = false := by
  cases ht : o.treatment <;> simp_all [isAnnounced, announcement?]

end Occurrence

open Run Session SessionState

namespace Visitor

variable {ι μ : Type} [DecidableEq ι] {v : Visitor ι μ} {o : Occurrence}

omit [DecidableEq ι] in
/-- What the walk uses at a node besides its brackets belongs between the brackets around it. -/
theorem Uses.announcedAround {call : HookCall Occurrence CheckedType} (h : v.Uses o call) :
    call.isCrossing = false ∧
      call.announcedAround = o.lineage.filter Occurrence.isAnnounced := by
  have hplain (ht : o.treatment ∉ [.classLike, .methodLike, .call]) :
      o.ancestors.filter Occurrence.isAnnounced = o.lineage.filter Occurrence.isAnnounced :=
    (Occurrence.announcedLineage_of_not (Occurrence.isAnnounced_of_treatment ht)).symm
  have hchild {role : Role} {c : Occurrence} (hc : o.child? role = some c) :
      c.ancestors.filter Occurrence.isAnnounced = o.lineage.filter Occurrence.isAnnounced := by
    rw [Occurrence.ancestors_of_mem_children (Occurrence.mem_children_of_child? hc)]
  cases h with
  | identifier ht => exact ⟨rfl, hplain (by simp [ht])⟩
  | shorthand ht hname => exact ⟨rfl, hchild hname⟩
  | property ht _ => exact ⟨rfl, hplain (by simp [ht])⟩
  | element ht => exact ⟨rfl, hplain (by simp [ht])⟩
  | declared ht _ _ => exact ⟨rfl, hplain (by simp [ht])⟩
  | assigned ht _ _ => exact ⟨rfl, hplain (by simp [ht])⟩
  | returned ht _ _ => exact ⟨rfl, hplain (by simp [ht])⟩
  | arrowBody _ hbody _ _ => exact ⟨rfl, hchild hbody⟩
  | missing _ => exact ⟨rfl, rfl⟩
  | ambiguous _ => exact ⟨rfl, rfl⟩
  | selection _ => exact ⟨rfl, rfl⟩

/-- An announced node begins and ends with its brackets, and between them lies what its body does, or
nothing if the node is taken over. -/
theorem announced_takesTurns {before : Question Occurrence CheckedType}
    {after : Notice Occurrence CheckedType} {body : Session ι μ Unit} {L : List (Event ι) → Prop}
    (hbody : TakesTurns body fun _ => L) :
    TakesTurns (v.announced before after body) fun _ turns =>
      ∃ registry taken inner registry', (taken = true → inner = []) ∧ (taken = false → L inner) ∧
        turns = .raised (.ask before) registry :: .settled (.ask before) taken ::
          (inner ++ [.raised (.notify after) registry', .settled (.notify after) ()]) := by
  have hlast := v.checker.raise_takesTurns (.notify after)
  have hrest (taken : Bool) : TakesTurns
      (if taken then v.checker.raise (.notify after)
        else body >>= fun _ => v.checker.raise (.notify after)) fun _ turns =>
      ∃ inner registry', (taken = true → inner = []) ∧ (taken = false → L inner) ∧
        turns = inner ++ [.raised (.notify after) registry', .settled (.notify after) ()] := by
    cases taken with
    | true =>
        refine hlast.mono ?_
        rintro _ _ ⟨registry', rfl⟩
        exact ⟨[], registry', fun _ => rfl, (fun h => nomatch h), rfl⟩
    | false =>
        refine (hbody.bind fun _ => hlast).mono ?_
        rintro _ _ ⟨_, inner, _, rfl, hinner, ⟨registry', rfl⟩⟩
        exact ⟨inner, registry', (fun h => nomatch h), fun _ => hinner, rfl⟩
  have hform : v.announced before after body = v.checker.raise (.ask before) >>= fun taken =>
      if taken then v.checker.raise (.notify after)
        else body >>= fun _ => v.checker.raise (.notify after) := rfl
  rw [hform]
  refine ((v.checker.raise_takesTurns (.ask before)).bind hrest).mono ?_
  rintro _ _ ⟨taken, _, _, rfl, ⟨registry, rfl⟩, inner, registry', htaken, hinner, rfl⟩
  exact ⟨registry, taken, inner, registry', htaken, hinner, rfl⟩

/-- The scope of a closure is opened and closed without a turn. -/
theorem enclosed_takesTurns {closure : Occurrence} {body : Session ι μ Unit}
    {L : List (Event ι) → Prop} (hbody : TakesTurns body fun _ => L) :
    TakesTurns (v.enclosed closure body) fun _ turns => ∃ extensions inner, L inner ∧
      turns = .brought closure extensions :: inner := by
  have hinside (extensions : List ι) : TakesTurns
      (if extensions.isEmpty then body else do
        pushLocal extensions
        Run.ensuring body popLocal) fun _ => L := by
    split
    · exact hbody
    · intro s _ t h
      obtain ⟨_, _, hpush, hensured⟩ := bind_eq_ok_iff.mp h
      cases hpush
      obtain ⟨r, hrun, hpop⟩ := ensuring_eq_ok_iff.mp hensured
      obtain ⟨turns, hgrown, hL⟩ := hbody _ _ _ hrun
      refine ⟨turns, ?_, hL⟩
      rw [SessionState.turns, journal_of_popLocal hpop]
      exact hgrown
  rw [enclosed]
  refine ((v.checker.localExtensionsFor_takesTurns closure).bind hinside).mono ?_
  rintro _ _ ⟨extensions, _, inner, rfl, rfl, hinner⟩
  exact ⟨extensions, inner, hinner, rfl⟩

/-- The turns taken below a node lie between the brackets of the announced nodes around them. The
induction is on how the walk is put together. -/
theorem Walk.bracketed {children : List Occurrence} {m : Session ι μ Unit}
    (h : v.Walk o children m) :
    TakesTurns m fun _ => Bracketed (o.lineage.filter Occurrence.isAnnounced) := by
  induction h with
  | stay => exact (IsQuiet.takesTurns (Keeps.pure ())).mono fun _ _ hnil => hnil ▸ .done
  | andThen _ _ ih ih' =>
      refine (ih.bind fun _ => ih').mono ?_
      rintro _ _ ⟨_, first, rest, rfl, hfirst, hrest⟩
      exact hfirst.append hrest
  | quiet hquiet _ ih =>
      refine (hquiet.takesTurns.bind ih).mono ?_
      rintro _ _ ⟨_, _, rest, rfl, rfl, hrest⟩
      exact hrest
  | use huse _ ih =>
      refine ((v.checker.raise_takesTurns _).bind ih).mono ?_
      rintro _ _ ⟨answer, _, rest, rfl, ⟨registry, rfl⟩, hrest⟩
      exact .use huse.announcedAround.1 huse.announcedAround.2 hrest
  | inside hchild hplain _ _ _ _ ih =>
      rw [← Occurrence.ancestors_of_mem_children hchild,
        ← Occurrence.announcedLineage_of_not (by rw [Occurrence.isAnnounced, hplain]; rfl)]
      exact ih
  | @announced o child before after _ _ hchild hannounced _ _ ih =>
      rw [Occurrence.lineage_of_mem_children hchild, List.filter_cons_of_pos (by
        rw [Occurrence.isAnnounced, hannounced]; rfl)] at ih
      refine (announced_takesTurns ih).mono ?_
      rintro _ _ ⟨registry, taken, inner, registry', htaken, hinner, rfl⟩
      have hbetween : Bracketed (child :: o.lineage.filter Occurrence.isAnnounced) inner := by
        cases taken with
        | true => exact htaken rfl ▸ .done
        | false => exact hinner rfl
      exact .pair hannounced (by rw [Occurrence.ancestors_of_mem_children hchild]) htaken hbetween
        .done
  | @enclosed o child _ _ hchild hclosure _ _ ih =>
      have hplace : child.ancestors.filter Occurrence.isAnnounced =
          o.lineage.filter Occurrence.isAnnounced := by
        rw [Occurrence.ancestors_of_mem_children hchild]
      have hplain : child.isAnnounced = false :=
        Occurrence.isAnnounced_of_treatment (by simp [Occurrence.isClosure_iff.mp hclosure])
      rw [Occurrence.announcedLineage_of_not hplain, hplace] at ih
      refine (enclosed_takesTurns ih).mono ?_
      rintro _ _ ⟨extensions, inner, hinner, rfl⟩
      exact .closure hplace hinner

end Visitor

/-- The nodes that are announced, in order. -/
def announcedIn {ι : Type} (turns : List (Event ι)) : List Occurrence :=
  turns.filterMap Event.announced?

section

variable {ι : Type} (turns rest : List (Event ι))

theorem announcedIn_append : announcedIn (turns ++ rest) = announcedIn turns ++ announcedIn rest :=
  List.filterMap_append

theorem announcedIn_raised (call : HookCall Occurrence CheckedType)
    (registry : Registry ι (List ι)) :
    announcedIn (.raised call registry :: turns) = call.announced?.toList ++ announcedIn turns := by
  rw [announcedIn, List.filterMap_cons]
  cases h : call.announced? <;> simp [Event.announced?, h, announcedIn]

theorem announcedIn_settled (call : HookCall Occurrence CheckedType) (answer : call.Answer) :
    announcedIn (.settled call answer :: turns) = announcedIn turns := rfl

theorem announcedIn_brought (closure : Occurrence) (extensions : List ι) :
    announcedIn (.brought closure extensions :: turns) = announcedIn turns := rfl

end

/-- No node is announced twice, and each of those announced is one of the given children of `o` or
stands below one. -/
structure AnnouncesOnce {ι : Type} (o : Occurrence) (children : List Occurrence)
    (turns : List (Event ι)) : Prop where
  once : ((announcedIn turns).map Occurrence.id).Nodup
  below : ∀ n ∈ announcedIn turns, ∃ child ∈ children, child ∈ o.children ∧ child ∈ n.lineage

namespace AnnouncesOnce

variable {ι : Type} {o child : Occurrence} {children children' : List Occurrence}
  {turns rest : List (Event ι)}

theorem nil : AnnouncesOnce o children ([] : List (Event ι)) :=
  ⟨List.nodup_nil, fun _ h => nomatch h⟩

theorem congr (h : AnnouncesOnce o children turns) (hrest : announcedIn rest = announcedIn turns) :
    AnnouncesOnce o children rest := by
  constructor
  · rw [hrest]
    exact h.once
  · rw [hrest]
    exact h.below

theorem append (h : AnnouncesOnce o children turns) (h' : AnnouncesOnce o children' rest)
    (honce : (children ++ children').Nodup) :
    AnnouncesOnce o (children ++ children') (turns ++ rest) := by
  constructor
  · rw [announcedIn_append, List.map_append]
    refine List.nodup_append.mpr ⟨h.once, h'.once, ?_⟩
    rintro id hid id' hid' rfl
    obtain ⟨n, hn, rfl⟩ := List.mem_map.mp hid
    obtain ⟨n', hn', hsame⟩ := List.mem_map.mp hid'
    obtain ⟨c, hc, hchild, hlineage⟩ := h.below n hn
    obtain ⟨c', hc', hchild', hlineage'⟩ := h'.below n' hn'
    have heq :=
      Occurrence.eq_of_mem_children_of_mem_lineage hchild hchild' hlineage hlineage' hsame.symm
    exact (List.nodup_append.mp honce).2.2 c hc c' hc' heq
  · intro n hn
    rw [announcedIn_append] at hn
    rcases List.mem_append.mp hn with hn | hn
    · obtain ⟨c, hc, hbelow⟩ := h.below n hn
      exact ⟨c, List.mem_append_left _ hc, hbelow⟩
    · obtain ⟨c, hc, hbelow⟩ := h'.below n hn
      exact ⟨c, List.mem_append_right _ hc, hbelow⟩

/-- All that is announced is in one file. -/
theorem file_eq (h : AnnouncesOnce o children turns) {n : Occurrence} (hn : n ∈ announcedIn turns) :
    n.file = o.file := by
  obtain ⟨c, -, hc, hlineage⟩ := h.below n hn
  rw [← (Occurrence.suffix_of_mem_lineage hlineage).2.2, Occurrence.file_of_mem_children hc]

/-- What is announced below a child is announced below its parent. -/
theorem ofChild (hchild : child ∈ o.children) (h : AnnouncesOnce child children turns) :
    AnnouncesOnce o [child] turns := by
  refine ⟨h.once, fun n hn => ⟨child, List.mem_singleton_self child, hchild, ?_⟩⟩
  obtain ⟨c, -, hc, hlineage⟩ := h.below n hn
  apply (Occurrence.suffix_of_mem_lineage hlineage).1.subset
  rw [Occurrence.lineage_of_mem_children hc, Occurrence.lineage_of_mem_children hchild]
  exact List.mem_cons_of_mem _ List.mem_cons_self

/-- A child that is announced itself stands above all that is announced below it. -/
theorem ofAnnounced (hchild : child ∈ o.children) (h : AnnouncesOnce child children turns)
    (hrest : announcedIn rest = child :: announcedIn turns) : AnnouncesOnce o [child] rest := by
  obtain ⟨honce, hbelow⟩ := h.ofChild hchild
  constructor
  · rw [hrest, List.map_cons, List.nodup_cons]
    refine ⟨fun hid => ?_, honce⟩
    obtain ⟨n, hn, hsame⟩ := List.mem_map.mp hid
    obtain ⟨c, -, hc, hlineage⟩ := h.below n hn
    have hlength := (Occurrence.suffix_of_mem_lineage hlineage).2.1.length_le
    obtain ⟨_, _, -, rfl⟩ := Occurrence.mem_children_iff.mp hc
    have hlonger : n.above.length ≠ child.above.length :=
      Nat.ne_of_gt (Nat.lt_of_lt_of_le (Nat.lt_succ_self _) hlength)
    exact Occurrence.id_ne_of_length_above_ne hlonger hsame
  · intro n hn
    rw [hrest] at hn
    rcases List.mem_cons.mp hn with rfl | hn
    · refine ⟨n, List.mem_singleton_self n, hchild, ?_⟩
      rw [Occurrence.lineage_of_mem_children hchild]
      exact List.mem_cons_self
    · exact hbelow n hn

end AnnouncesOnce

namespace Visitor

variable {ι μ : Type} [DecidableEq ι] {v : Visitor ι μ} {o : Occurrence}

omit [DecidableEq ι] in
theorem Uses.announced? {call : HookCall Occurrence CheckedType} (h : v.Uses o call) :
    call.announced? = none := by
  cases h <;> rfl

/-- A walk that comes to each child once announces each node once. -/
theorem Walk.announcesOnce {children : List Occurrence} {m : Session ι μ Unit}
    (h : v.Walk o children m) (honce : children.Nodup) :
    TakesTurns m fun _ => AnnouncesOnce o children := by
  induction h with
  | stay =>
      refine (IsQuiet.takesTurns (Keeps.pure ())).mono fun _ _ hnil => ?_
      rw [hnil]
      exact .nil
  | andThen _ _ ih ih' =>
      have hparts := List.nodup_append.mp honce
      refine ((ih hparts.1).bind fun _ => ih' hparts.2.1).mono ?_
      rintro _ _ ⟨_, first, rest, rfl, hfirst, hrest⟩
      exact hfirst.append hrest honce
  | quiet hquiet _ ih =>
      refine (hquiet.takesTurns.bind fun a => ih a honce).mono ?_
      rintro _ _ ⟨_, _, rest, rfl, rfl, hrest⟩
      exact hrest
  | @use _ _ call _ huse _ ih =>
      refine ((v.checker.raise_takesTurns _).bind fun answer => ih answer honce).mono ?_
      rintro _ _ ⟨answer, _, rest, rfl, ⟨registry, rfl⟩, hrest⟩
      refine hrest.congr ?_
      rw [List.cons_append, List.cons_append, announcedIn_raised, announcedIn_settled,
        huse.announced?]
      rfl
  | inside hchild _ _ _ hentered _ ih =>
      exact (ih hentered).mono fun _ _ hinner => hinner.ofChild hchild
  | @announced o child before after children _ hchild hannounced hentered _ ih =>
      obtain ⟨-, -, hbefore, hafter⟩ := Occurrence.announcement?_spec hannounced
      refine (announced_takesTurns (ih hentered)).mono ?_
      rintro _ _ ⟨registry, taken, inner, registry', htaken, hinner, rfl⟩
      have hbetween : AnnouncesOnce child children inner := by
        cases taken with
        | true => exact htaken rfl ▸ .nil
        | false => exact hinner rfl
      refine hbetween.ofAnnounced hchild ?_
      rw [announcedIn_raised, announcedIn_settled, announcedIn_append, announcedIn_raised,
        announcedIn_settled, hbefore, hafter]
      exact congrArg (child :: ·) (List.append_nil _)
  | @enclosed o child _ _ hchild _ hentered _ ih =>
      refine (enclosed_takesTurns (ih hentered)).mono ?_
      rintro _ _ ⟨extensions, inner, hinner, rfl⟩
      exact (hinner.ofChild hchild).congr (announcedIn_brought inner child extensions)

/-- Below nodes that have bodies, wherever they should have one, the walk spares those without. -/
theorem Walk.sparesBodiless {children : List Occurrence} {m : Session ι μ Unit}
    (h : v.Walk o children m) (ho : ∀ a ∈ o.lineage, a.isBodiless = false) :
    Writes Event.SparesBodiless m := by
  refine h.writes (Q := fun o => ∀ a ∈ o.lineage, a.isBodiless = false)
    (fun _ => Event.sparesBodiless_of_quiet) ?child ?use ?announced ?brought ho
  case child =>
    intro o child ho hchild hbody a ha
    rw [Occurrence.lineage_of_mem_children hchild] at ha
    rcases List.mem_cons.mp ha with rfl | ha
    · exact hbody
    · exact ho a ha
  case use =>
    intro o call ho huse
    have hspares (n : Occurrence) (hn : n ∈ call.node?) :
        (call.isCrossing → n.isBodiless = false) ∧ ∀ a ∈ n.ancestors, a.isBodiless = false := by
      refine ⟨fun hcrossing => ?_, fun a ha => ho a ?_⟩
      · rw [huse.announcedAround.1] at hcrossing
        cases hcrossing
      · obtain ⟨n', hn', hplace⟩ := huse.node?
        obtain rfl : n' = n := Option.some.inj (hn'.symm.trans hn)
        rcases hplace with ⟨rfl, -⟩ | hchild
        · exact Occurrence.mem_lineage_of_mem_ancestors ha
        · rwa [Occurrence.ancestors_of_mem_children hchild] at ha
    exact ⟨fun _ => hspares, fun _ => hspares⟩
  case announced =>
    intro o child before after ho hchild hannounced
    obtain ⟨hbefore, hafter, -⟩ := Occurrence.announcement?_spec hannounced
    have hspares : child.isBodiless = false ∧ ∀ a ∈ child.ancestors, a.isBodiless = false := by
      rw [Occurrence.ancestors_of_mem_children hchild]
      exact ⟨Occurrence.isBodiless_of_announcement? hannounced, ho⟩
    have hask (n : Occurrence) (hn : n ∈ (HookCall.ask before).node?) : n = child := by
      rw [← hbefore]
      exact (Option.some.inj hn).symm
    have hnotify (n : Occurrence) (hn : n ∈ (HookCall.notify after).node?) : n = child :=
      (Option.some.inj (hafter.symm.trans hn)).symm
    constructor
    · exact ⟨fun _ n hn => hask n hn ▸ ⟨fun _ => hspares.1, hspares.2⟩,
        fun _ n hn => hask n hn ▸ ⟨fun _ => hspares.1, hspares.2⟩⟩
    · exact ⟨fun _ n hn => hnotify n hn ▸ ⟨fun _ => hspares.1, hspares.2⟩,
        fun _ n hn => hnotify n hn ▸ ⟨fun _ => hspares.1, hspares.2⟩⟩
  case brought =>
    intro o child ho hchild _ extensions n hn
    cases hn
    rw [Occurrence.ancestors_of_mem_children hchild]
    exact ⟨(fun h => nomatch h), ho⟩

end Visitor

namespace Checker

variable {ι μ : Type} [DecidableEq ι] (c : Checker ι μ)

theorem visitFile_takesTurns (file : SourceFile) :
    TakesTurns (c.visitFile file) fun _ turns => Bracketed [] turns ∧
      AnnouncesOnce file.rootOccurrence file.rootOccurrence.children turns := by
  have hwalk := c.visitFile_walk file
  exact hwalk.bracketed.and (hwalk.announcesOnce (Occurrence.nodup_children _))

/-- The turns taken over several files are bracketed one file after the other. If no number stands
for two files, no node is announced twice. -/
theorem visitFiles_takesTurns (files : List SourceFile) :
    TakesTurns (files.forM c.visitFile) fun _ turns => Bracketed [] turns ∧
      (∀ n ∈ announcedIn turns, n.file ∈ files) ∧
      ((files.map (·.number)).Nodup → ((announcedIn turns).map Occurrence.id).Nodup) := by
  induction files with
  | nil =>
      refine (IsQuiet.takesTurns (Keeps.pure PUnit.unit)).mono fun _ turns hnil => ?_
      subst hnil
      exact ⟨.done, (fun _ hn => nomatch hn), fun _ => List.nodup_nil⟩
  | cons file files ih =>
      refine ((c.visitFile_takesTurns file).bind fun _ => ih).mono ?_
      rintro _ _ ⟨_, first, rest, rfl, ⟨hfirst, honce⟩, hrest, hmem, hnodup⟩
      have hhere : ∀ n ∈ announcedIn first, n.file = file := fun n hn => honce.file_eq hn
      refine ⟨hfirst.append hrest, fun n hn => ?_, fun hnumbers => ?_⟩
      · rw [announcedIn_append] at hn
        rcases List.mem_append.mp hn with hn | hn
        · exact List.mem_cons.mpr (Or.inl (hhere n hn))
        · exact List.mem_cons_of_mem _ (hmem n hn)
      · obtain ⟨hnew, hnumbers⟩ := List.nodup_cons.mp hnumbers
        rw [announcedIn_append, List.map_append]
        refine List.nodup_append.mpr ⟨honce.once, hnodup hnumbers, ?_⟩
        rintro id hid id' hid' rfl
        obtain ⟨n, hn, rfl⟩ := List.mem_map.mp hid
        obtain ⟨n', hn', hsame⟩ := List.mem_map.mp hid'
        apply hnew
        have hnumber : n'.file.number = file.number := by
          rw [← hhere n hn]
          exact congrArg NodeId.file hsame
        exact List.mem_map.mpr ⟨n'.file, hmem n' hn', hnumber⟩

/-- A whole check spares methods without a body, also if it is aborted. -/
theorem check_sparesBodiless (p : Program) : Writes Event.SparesBodiless (c.check p) := by
  have hends (notice : Notice Occurrence CheckedType) (hnode : notice.node? = none) :
      Writes Event.SparesBodiless (c.raise (.notify notice)) := by
    have hnone (n : Occurrence) (hn : n ∈ (HookCall.notify notice).node?) : False :=
      nomatch hnode.symm.trans hn
    exact writes_of_keeps (c.writes_raise (fun _ => Event.sparesBodiless_of_quiet)
      ⟨fun _ n hn => (hnone n hn).elim, fun _ n hn => (hnone n hn).elim⟩)
  have hfiles : Writes Event.SparesBodiless (p.files.forM c.visitFile) :=
    Keeps.forM fun file _ => (c.visitFile_walk file).sparesBodiless fun _ ha => nomatch ha
  rw [check]
  refine (c.quiet_start.writes fun _ => Event.sparesBodiless_of_quiet).bind fun _ => ?_
  refine (hends .setup rfl).bind fun _ => hfiles.bind fun _ => ?_
  exact (hends .finish rfl).bind fun _ => Keeps.get.bind fun _ => Keeps.pure _

/-- Whatever the program, the extensions and their answers: a check that is not aborted announces and
leaves nodes like opening and closing brackets, nested as the nodes are. -/
theorem check_bracketed (p : Program) (memory : μ) (h : (c.check p).finishes { memory }) :
    let turns := ((c.check p).after { memory }).turns
    Bracketed [] turns ∧ (∀ e ∈ turns, e.SparesBodiless) ∧
      ((p.files.map (·.number)).Nodup → ((announcedIn turns).map Occurrence.id).Nodup) := by
  obtain ⟨verdict, h⟩ := exists_of_finishes h
  have hspares := (c.check_sparesBodiless p).state { memory }
  generalize (c.check p).after { memory } = s at h hspares ⊢
  obtain ⟨events, hjournal, hspares⟩ := hspares
  have hturns : TakesTurns (c.check p) fun _ turns => Bracketed [] turns ∧
      ((p.files.map (·.number)).Nodup → ((announcedIn turns).map Occurrence.id).Nodup) := by
    refine (c.quiet_start.takesTurns.bind fun _ => (c.raise_takesTurns (.notify .setup)).bind
      fun _ => (c.visitFiles_takesTurns p.files).bind fun _ =>
        (c.raise_takesTurns (.notify .finish)).bind fun _ =>
          (IsQuiet.takesTurns (m := do return (← get).verdict)
            (Keeps.get.bind fun _ => Keeps.pure _))).mono ?_
    rintro _ _ ⟨_, _, _, rfl, rfl, _, _, _, rfl, ⟨_, rfl⟩, _, turns, _, rfl,
      ⟨hbracketed, -, honce⟩, _, _, _, rfl, ⟨_, rfl⟩, rfl⟩
    refine ⟨.use rfl rfl (hbracketed.append (.use rfl rfl .done)), fun hnumbers => ?_⟩
    have hnone (notice : Notice Occurrence CheckedType) (registry : Registry ι (List ι))
        (rest : List (Event ι)) : announcedIn (.raised (.notify notice) registry ::
          .settled (.notify notice) () :: rest) = announcedIn rest := rfl
    show ((announcedIn (.raised (.notify .setup) _ :: .settled (.notify .setup) () ::
      (turns ++ [.raised (.notify .finish) _, .settled (.notify .finish) ()]))).map _).Nodup
    rw [hnone, announcedIn_append, hnone]
    exact (List.append_nil (announcedIn turns)).symm ▸ honce hnumbers
  obtain ⟨turns, hgrown, hbracketed, honce⟩ := hturns _ _ _ h
  obtain rfl : s.turns = turns := hgrown
  refine ⟨hbracketed, fun e he => hspares e ?_, honce⟩
  have hmem := List.mem_of_mem_filter he
  rw [hjournal] at hmem
  exact hmem

end Checker

/-- A class with a method that is declared before it is defined, and whose body calls a function on
the result of another call. -/
def nestedCalls : Program :=
  let inner := Node.bare .callExpression .argument [.bare .identifier .expression]
  let outer := Node.bare .callExpression .expression [.bare .identifier .expression, inner]
  let method := Node.bare .methodDeclaration (.other "members*")
    [.bare .identifier .name, .bare .block .body [outer]]
  let overload := Node.bare .methodDeclaration (.other "members*") [.bare .identifier .name]
  let classNode := Node.bare .classDeclaration (.other "statements*") [overload, method]
  ⟨[⟨0, "nested.ts", "", .bare .sourceFile (.other "") [classNode], []⟩]⟩

/-- An extension that takes over every call that is an argument. -/
def takesOverArguments : Checker Unit Unit where
  extensions := [.done ()]
  behaviour
    | _, .ask (.beforeMethodCall call) => .done (call.node.role = .argument)
    | _, call => Behaviour.neutral call
  label _ := .anonymous
  limit := 1

/-- The class, the method that is defined, and both calls are announced. -/
theorem check_bracketed_nestedCalls :
    let run := takesOverArguments.check nestedCalls
    let turns := (run.after { memory := () }).turns
    run.finishes { memory := () } ∧ (announcedIn turns).length = 4 ∧ Bracketed [] turns ∧
      (∀ e ∈ turns, e.SparesBodiless) ∧ ((announcedIn turns).map Occurrence.id).Nodup := by
  have hfinishes : (takesOverArguments.check nestedCalls).finishes { memory := () } := by
    decide +kernel
  obtain ⟨hbracketed, hspares, honce⟩ :=
    takesOverArguments.check_bracketed nestedCalls () hfinishes
  exact ⟨hfinishes, by decide +kernel, hbracketed, hspares, honce (by decide)⟩

end ExtensibleCheck
