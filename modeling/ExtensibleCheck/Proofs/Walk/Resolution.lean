import ExtensibleCheck.Proofs.Walk.Hooks
import ExtensibleCheck.Proofs.Walk.Marks
import ExtensibleCheck.Proofs.Walk.Mistakes
import ExtensibleCheck.Proofs.Walk.Typing

/-! How calls of members are resolved. When the walk is through with the callee and the arguments of a
call that nobody took over, the extensions are asked for a method if the compiler knows none on a type
that can be judged; several are narrowed; and then either one is selected, or it is reported that there
is none, or that there is no way to choose. Nothing of this is ever done for a call anywhere else. -/

namespace ExtensibleCheck

open Occurrence

section

variable {ι : Type} {nodes : List Occurrence} {events journal past rest : List (Event ι)}
  {n m call : Occurrence}

/-- The use of a hook is settled only at its end. -/
theorem Exchange.settled_last {use use' : HookCall Occurrence CheckedType} {answer : use.Answer}
    {answer' : use'.Answer} (h : Exchange use answer events)
    (hsplit : events = past ++ .settled use' answer' :: rest) :
    rest = [] ∧ Event.settled (ι := ι) use' answer' = .settled use answer := by
  obtain ⟨registry, hduring⟩ := h
  rw [← List.cons_append] at hsplit
  rcases append_eq_append_cons hsplit with ⟨between, hearlier, -⟩ | ⟨between, -, hlast⟩
  · have hmem := List.mem_append_right past (List.mem_cons_self (a := Event.settled use' answer')
      (l := between))
    rw [← hearlier] at hmem
    rcases List.mem_cons.mp hmem with hfirst | hmem
    · cases hfirst
    · cases hduring _ hmem
  · cases between with
    | nil =>
        obtain ⟨hsame, hrest⟩ := List.cons_eq_cons.mp hlast
        exact ⟨hrest.symm, hsame.symm⟩
    | cons => simp at hlast

theorem announcement?_of_call {after : Notice Occurrence CheckedType}
    (h : n.announcement? = some (.beforeMethodCall call, after)) :
    n = call ∧ call.isCall ∧ after = .afterMethodCall call := by
  rw [announcement?] at h
  split at h
  · cases h
  · split at h <;> cases h
  · rename_i ht
    cases h
    exact ⟨rfl, isCall_of_treatment ht, rfl⟩
  · cases h

/-- The answer to the announcement of a call ends its opening. -/
theorem Opening.call_of_settled {enters : Bool} (h : Opening n enters events)
    (hsplit : events = past ++ .settled (.ask (.beforeMethodCall call)) false :: rest) :
    rest = [] ∧ enters = true ∧ n = call ∧ call.isCall ∧
      call.announcement? = some (.beforeMethodCall call, .afterMethodCall call) := by
  cases h with
  | plain => simp at hsplit
  | closure _ hduring =>
      have hmem := List.mem_append_right past (List.mem_cons_self
        (a := Event.settled (.ask (.beforeMethodCall call)) false) (l := rest))
      rw [← hsplit] at hmem
      rcases List.mem_append.mp hmem with hmem | hlast
      · cases hduring _ hmem
      · cases List.mem_singleton.mp hlast
  | announced hannounced hasked =>
      obtain ⟨hrest, hsame⟩ := hasked.settled_last hsplit
      cases hsame
      obtain ⟨rfl, hkind, rfl⟩ := announcement?_of_call hannounced
      exact ⟨hrest, rfl, rfl, hkind, hannounced⟩

/-- What follows in a trail once a call was announced and nobody took it over: the visits of its callee
and its arguments, its own resolution, and the leave that is taken of it. -/
theorem Trail.exists_visit (h : Trail nodes events)
    (hsplit : events = past ++ .settled (.ask (.beforeMethodCall call)) false :: rest) :
    ∃ inside own told after, rest = inside ++ own ++ told ++ after ∧ Trail call.entered inside ∧
      call.isVariable = false ∧ Resolution call own ∧
        Exchange (.notify (.afterMethodCall call)) () told := by
  have hmark : (Event.settled (ι := ι) (.ask (.beforeMethodCall call)) false).mark? =
      some (.answered .beforeMethodCall, call.id) := rfl
  induction h generalizing past rest with
  | aside hdeeds =>
      have hmem := hdeeds (.settled (.ask (.beforeMethodCall call)) false) (by rw [hsplit]; simp)
      cases hmem
  | @append _ _ left right _ _ ih ih' =>
      rcases append_eq_append_cons hsplit with ⟨between, hleft, rfl⟩ | ⟨between, rfl, hright⟩
      · obtain ⟨inside, own, told, after, rfl, hvisit⟩ := ih hleft
        exact ⟨inside, own, told, after ++ right, by simp, hvisit⟩
      · exact ih' hright
  | «variable» _ hcheck =>
      have hmem : (Landmark.answered .beforeMethodCall, call.id) ∈ marks _ :=
        List.mem_filterMap.mpr ⟨_, hsplit ▸ List.mem_append_right past List.mem_cons_self, hmark⟩
      rcases hcheck.marks with hnone | hone <;> simp_all
  | @node o enters opening inner closing hvariable hopening htrail hclosing ih =>
      rcases append_eq_append_cons hsplit with ⟨between, hleft, rfl⟩ | ⟨between, rfl, hright⟩
      · rcases append_eq_append_cons hleft with ⟨between', hopen, rfl⟩ | ⟨between', rfl, hmiddle⟩
        · obtain ⟨rfl, rfl, rfl, hkind, hannounced⟩ := hopening.call_of_settled hopen
          cases hclosing with
          | plain hnone _ =>
              rw [hannounced] at hnone
              cases hnone
          | @announced before after own told hannounced' hown htold =>
              rw [hannounced] at hannounced'
              cases hannounced'
              rw [if_pos hkind] at hown
              exact ⟨inner, own, told, [], by simp, htrail, hvariable, hown, htold⟩
        · obtain ⟨inside, own, told, after, rfl, hvisit⟩ := ih hmiddle
          exact ⟨inside, own, told, after ++ closing, by simp, hvisit⟩
      · have hmem : (Landmark.answered .beforeMethodCall, call.id) ∈ marks closing :=
          List.mem_filterMap.mpr ⟨_, hright ▸ List.mem_append_right _ List.mem_cons_self, hmark⟩
        obtain ⟨ms, hms, -, hother⟩ := hclosing.marks
        rw [hms] at hmem
        obtain ⟨m, hm, hanswered⟩ := List.mem_map.mp hmem
        obtain rfl : m = .answered .beforeMethodCall := congrArg Prod.fst hanswered
        exact absurd hm (hother _)

/-- The report that a method is missing or ambiguous, if the event is one. -/
def Event.rejection? : Event ι → Option Diagnostic
  | reported d => if d.code ∈ [.missingMethod, .ambiguousMethod] then some d else none
  | _ => none

/-- The calls of which it is reported that a method is missing or ambiguous. -/
def rejections (events : List (Event ι)) : List Diagnostic := events.filterMap Event.rejection?

theorem rejections_append (events rest : List (Event ι)) :
    rejections (events ++ rest) = rejections events ++ rejections rest :=
  List.filterMap_append

theorem Event.rejection?_of_isDeed (e : Event ι) (h : e.isDeed) : e.rejection? = none := by
  cases e with
  | reported d =>
      have hcode : d.code = .extensionError := of_decide_eq_true h
      rw [rejection?, hcode]
      rfl
  | _ => rfl

theorem Exchange.rejections {use : HookCall Occurrence CheckedType} {answer : use.Answer}
    (h : Exchange use answer events) : rejections events = [] := by
  obtain ⟨registry, hmap⟩ := h.filterMap Event.rejection?_of_isDeed
  exact hmap

theorem Offered.rejections {question : Question Occurrence CheckedType} {code : Code} {message : String}
    {place : Occurrence} (h : Offered question code message place events)
    (hcode : code ∉ [.missingMethod, .ambiguousMethod]) : rejections events = [] := by
  obtain ⟨registry, handled, hmap⟩ := h.filterMap Event.rejection?_of_isDeed (if_neg hcode)
  exact hmap

theorem rejections_probing (matter : Matter) : rejections (matter.probing (ι := ι) n) = [] := by
  rw [Matter.probing]
  split <;> rfl

theorem Remark.rejections (h : Remark n events) : rejections events = [] := by
  cases h with
  | nothing => rfl
  | inquiry _ h =>
      cases h with
      | spared | vouched => rfl
      | settled =>
          rw [rejections_append, rejections_probing]
          rfl
      | offered _ hmistake hoffered =>
          rw [rejections_append, rejections_probing, List.nil_append]
          refine hoffered.rejections fun hcode => ?_
          have hmistaken := Question.isAsideFromMistakes_of_mistake? hmistake
          rcases List.mem_pair.mp hcode with rfl | rfl <;> cases hmistaken

theorem Selecting.rejections {target : Candidate CheckedType} (h : Selecting call target events) :
    rejections events = [] := by
  obtain ⟨h⟩ := h
  exact h.rejections

/-- What is reported when a call is resolved is reported at the name of the member. -/
theorem Resolution.rejections (h : Resolution call events) : ∀ d ∈ rejections events,
    ∃ object name, call.member? = some (object, name) ∧ d.location = some name.location := by
  have hnone {events : List (Event ι)} (h : ExtensibleCheck.rejections events = []) :
      ∀ d ∈ ExtensibleCheck.rejections events,
        ∃ object name, call.member? = some (object, name) ∧ d.location = some name.location := by
    rw [h]
    exact fun _ h => nomatch h
  cases h with
  | compiled _ h =>
      obtain rfl | ⟨target, h⟩ := h
      · exact hnone rfl
      · exact hnone h.rejections
  | unchecked => exact hnone rfl
  | @supplied object name receiver types found chosen contributing narrowing choosing hmember _ _ _
      hcontributing hnarrowing hchoosing =>
      have hnarrowed : ExtensibleCheck.rejections narrowing = [] := by
        cases hnarrowing with
        | several _ h => exact h.rejections
        | few => rfl
      rw [ExtensibleCheck.rejections, filterMap_supplied Event.rejection?_of_isDeed]
      show ∀ d ∈ ExtensibleCheck.rejections contributing ++ ExtensibleCheck.rejections narrowing ++
        ExtensibleCheck.rejections choosing, _
      rw [hcontributing.rejections, hnarrowed, List.append_nil, List.nil_append]
      cases hchoosing with
      | one h => exact hnone h.rejections
      | none =>
          intro d hd
          cases List.mem_singleton.mp hd
          exact ⟨object, name, hmember, rfl⟩
      | many =>
          intro d hd
          cases List.mem_singleton.mp hd
          exact ⟨object, name, hmember, rfl⟩

/-- That a method is missing or ambiguous is reported when a call of a member is closed, at the name of
the member. -/
theorem Piece.member_of_rejection (h : Piece journal n events) {d : Diagnostic}
    (hmem : d ∈ rejections events) :
    ∃ object name, n.member? = some (object, name) ∧ d.location = some name.location := by
  have hnone (h : rejections events = []) : False := by
    rw [h] at hmem
    exact nomatch hmem
  cases h with
  | «variable» _ hcheck =>
      cases hcheck with
      | unread | known => exact (hnone rfl).elim
      | unknown _ _ hoffered => exact (hnone (hoffered.rejections (by decide))).elim
  | opening hopening =>
      cases hopening with
      | plain => exact (hnone rfl).elim
      | closure _ hduring =>
          refine (hnone ?_).elim
          rw [rejections_append, rejections, filterMap_deeds Event.rejection?_of_isDeed hduring]
          rfl
      | announced _ hasked => exact (hnone hasked.rejections).elim
  | closing _ _ hclosing =>
      cases hclosing with
      | plain _ h => exact (hnone h.rejections).elim
      | passed _ htold => exact (hnone htold.rejections).elim
      | announced _ hown htold =>
          rw [rejections_append, htold.rejections, List.append_nil] at hmem
          split at hown
          · exact hown.rejections d hmem
          · rw [hown] at hmem
            exact nomatch hmem

/-- What is done for calls other than a given one. -/
structure ResolvesOthers (call : Occurrence) (events : List (Event ι)) : Prop where
  uses : ∀ use ∈ raisedIn events, ∀ n, Resolves n use → n.id ≠ call.id
  reports : ∀ d ∈ rejections events, ∃ n object name, Occurrence.id n ≠ call.id ∧
    n.member? = some (object, name) ∧ d.location = some name.location

/-- The extensions are not asked for a method, and nobody says that one is missing or ambiguous. -/
structure LeavesToCompiler (events : List (Event ι)) : Prop where
  uses : ∀ use ∈ raisedIn events, use.hook ∉ [.missingMethod, .ambiguousMethods]
  reports : rejections events = []

/-- The extensions are asked once for the methods that could be meant, and once more for a choice if
there are several. Then either none is left, which is reported, or one, which is selected, or several,
which is reported with all of them. -/
def Supplied (call object name : Occurrence) (receiver : CheckedType) (events : List (Event ι)) : Prop :=
  ∃ types found chosen contributing narrowing choosing,
    events = .lookedUp object receiver :: (List.zipWith .lookedUp (call.withRole .argument) types ++
      contributing ++ narrowing ++ choosing) ∧
    types.length = (call.withRole .argument).length ∧
    Exchange (.contribute ⟨receiver, name.text, call.withRole .argument, types, call⟩) found
      contributing ∧
    (if 1 < found.length then Exchange (.narrow found call) chosen narrowing
      else chosen = found ∧ narrowing = []) ∧
    (raisedIn events).map (·.hook) = .missingMethod ::
      ((if 1 < found.length then [.ambiguousMethods] else []) ++
        if chosen.length = 1 then [.methodSelection] else []) ∧
    (rejections events).length = (if chosen.length = 1 then 0 else 1) ∧
    (chosen = [] ∧ choosing = [.reported ⟨.missingMethod, .error,
        "Cannot find matching method " ++ receiver.text ++ "#" ++ name.text ++ "("
          ++ ", ".intercalate (types.map (·.text)) ++ ")", some name.location⟩] ∨
      (∃ target, chosen = [target] ∧ Selecting call target choosing) ∨
      2 ≤ chosen.length ∧ choosing = [.reported ⟨.ambiguousMethod, .error,
        "Reference to method is ambiguous. Cannot choose between "
          ++ ", ".intercalate (chosen.map (·.describe (·.text))), some name.location⟩])

theorem LeavesToCompiler.nothing : LeavesToCompiler ([] : List (Event ι)) :=
  ⟨(fun _ h => nomatch h), rfl⟩

theorem Selecting.leavesToCompiler {target : Candidate CheckedType} (h : Selecting call target events) :
    LeavesToCompiler events := by
  refine ⟨fun use huse => ?_, h.rejections⟩
  rw [h.raised] at huse
  cases List.mem_singleton.mp huse
  simp [HookCall.hook, Notice.hook]

/-- What is done within a call is done for other calls. -/
theorem Trail.resolvesOthers (h : Trail call.entered events) (hcall : call.isVariable = false) :
    ResolvesOthers call events := by
  have hpiece {e : Event ι} (he : e ∈ events) (hdeed : e.isDeed = false) : ∃ n first last,
      n.id ≠ call.id ∧ Piece ([] : List (Event ι)) n (first ++ e :: last) := by
    obtain ⟨past, rest, hsplit⟩ := List.append_of_mem he
    rcases h.exists_piece consistent_nil hsplit with
      hmine | ⟨c, hc, n, -, first, last, -, -, -, hreaches, hpiece⟩
    · rw [hdeed] at hmine
      cases hmine
    · have hchild := ((mem_entered_iff hcall).mp hc).1
      have hlineage := hreaches.mem_lineage (mem_lineage_self hchild)
      exact ⟨n, first, last, (id_ne_of_mem_lineage hchild hlineage).symm, hpiece⟩
  constructor
  · intro use huse m hresolves
    obtain ⟨registry, hmem⟩ := mem_raisedIn.mp huse
    obtain ⟨n, first, last, hid, hpiece⟩ := hpiece hmem rfl
    have hraised : use ∈ raisedIn (first ++ .raised use registry :: last) :=
      mem_raisedIn.mpr ⟨registry, List.mem_append_right first List.mem_cons_self⟩
    rwa [← (hpiece.call_of_resolves hraised hresolves).1]
  · intro d hd
    obtain ⟨e, he, hrejection⟩ := List.mem_filterMap.mp hd
    have hdeed : e.isDeed = false := by
      refine Bool.eq_false_iff.mpr fun hdeed => ?_
      rw [e.rejection?_of_isDeed hdeed] at hrejection
      cases hrejection
    obtain ⟨n, first, last, hid, hpiece⟩ := hpiece he hdeed
    obtain ⟨object, name, hmember, hlocation⟩ := hpiece.member_of_rejection
      (List.mem_filterMap.mpr ⟨e, List.mem_append_right first List.mem_cons_self, hrejection⟩)
    exact ⟨n, object, name, hid, hmember, hlocation⟩

theorem supplied_of_choosing {object name : Occurrence} {receiver : CheckedType}
    {types : List CheckedType} {found chosen : List (Candidate CheckedType)}
    {contributing narrowing choosing : List (Event ι)}
    (htypes : types.length = (call.withRole .argument).length)
    (hcontributing : Exchange (.contribute ⟨receiver, name.text, call.withRole .argument, types, call⟩)
      found contributing)
    (hnarrowing : Narrowing call found chosen narrowing)
    (hchoosing : Choosing call name receiver types chosen choosing) :
    Supplied call object name receiver (.lookedUp object receiver ::
      (List.zipWith .lookedUp (call.withRole .argument) types ++ contributing ++ narrowing
        ++ choosing)) := by
  have hnarrowed : (if 1 < found.length then Exchange (.narrow found call) chosen narrowing
      else chosen = found ∧ narrowing = []) ∧ rejections narrowing = [] ∧
      (raisedIn narrowing).map (·.hook) = if 1 < found.length then [.ambiguousMethods] else [] := by
    cases hnarrowing with
    | several hlength h =>
        rw [if_pos hlength, if_pos hlength, h.raised]
        exact ⟨h, h.rejections, rfl⟩
    | few hlength =>
        rw [if_neg (Nat.not_lt.mpr hlength), if_neg (Nat.not_lt.mpr hlength)]
        exact ⟨⟨rfl, rfl⟩, rfl, rfl⟩
  have hchosen : (raisedIn choosing).map (·.hook) =
      if chosen.length = 1 then [.methodSelection] else [] := by
    cases hchoosing with
    | none => rfl
    | one h =>
        rw [h.raised]
        rfl
    | many hlength =>
        rw [if_neg (Nat.ne_of_gt hlength)]
        rfl
  have hrejected : (rejections choosing).length = if chosen.length = 1 then 0 else 1 := by
    cases hchoosing with
    | none => rfl
    | one h =>
        rw [h.rejections]
        rfl
    | many hlength =>
        rw [if_neg (Nat.ne_of_gt hlength)]
        rfl
  refine ⟨types, found, chosen, contributing, narrowing, choosing, rfl, htypes, hcontributing,
    hnarrowed.1, ?_, ?_, ?_⟩
  · rw [raisedIn, filterMap_supplied Event.raised?_of_isDeed]
    show (raisedIn contributing ++ raisedIn narrowing ++ raisedIn choosing).map (·.hook) = _
    rw [List.map_append, List.map_append, hcontributing.raised, hnarrowed.2.2, hchosen,
      List.append_assoc]
    rfl
  · rw [rejections, filterMap_supplied Event.rejection?_of_isDeed]
    show (rejections contributing ++ rejections narrowing ++ rejections choosing).length = _
    rw [hcontributing.rejections, hnarrowed.2.1, List.nil_append, List.nil_append, hrejected]
  · cases hchoosing with
    | none => exact Or.inl ⟨rfl, rfl⟩
    | one h => exact Or.inr (Or.inl ⟨_, rfl, h⟩)
    | many hlength => exact Or.inr (Or.inr ⟨hlength, rfl⟩)

/-- The call of a member that the compiler does not know is left to it all the same if the type of the
object, which is looked up first, cannot be judged. -/
theorem Resolution.of_member {object name : Occurrence} (h : Resolution call events)
    (hmember : call.member? = some (object, name)) :
    name.node.info.hasSymbol ∧ LeavesToCompiler events ∨
      ∃ receiver further, events = .lookedUp object receiver :: further ∧
        name.node.info.hasSymbol = false ∧
        if receiver.isUnchecked then LeavesToCompiler events
        else Supplied call object name receiver events := by
  cases h with
  | compiled hsymbol h =>
      refine Or.inl ⟨hsymbol object name hmember, ?_⟩
      obtain rfl | ⟨target, h⟩ := h
      · exact .nothing
      · exact h.leavesToCompiler
  | unchecked hmember' hsymbol hreceiver =>
      rw [hmember] at hmember'
      cases hmember'
      refine Or.inr ⟨_, _, rfl, hsymbol, ?_⟩
      rw [if_pos hreceiver]
      exact ⟨(fun _ h => nomatch h), rfl⟩
  | supplied hmember' hsymbol hreceiver htypes hcontributing hnarrowing hchoosing =>
      rw [hmember] at hmember'
      cases hmember'
      refine Or.inr ⟨_, _, rfl, hsymbol, ?_⟩
      rw [hreceiver, if_neg Bool.false_ne_true]
      exact supplied_of_choosing htypes hcontributing hnarrowing hchoosing

theorem Course.exists_visit {p : Program} (h : Course p events)
    (hsplit : events = past ++ .settled (.ask (.beforeMethodCall call)) false :: rest) :
    ∃ inside own told after, rest = inside ++ own ++ told ++ after ∧ Trail call.entered inside ∧
      call.isVariable = false ∧ Resolution call own ∧
        Exchange (.notify (.afterMethodCall call)) () told := by
  rcases h.exists_trail_around hsplit with hambient | ⟨left, past, rest, right, rfl, rfl, htrail⟩
  · cases hambient
  obtain ⟨inside, own, told, after, rfl, hvisit⟩ := htrail.exists_visit rfl
  exact ⟨inside, own, told, after ++ right, by simp, hvisit⟩

end

open Run Session SessionState

namespace Checker

variable {ι μ : Type} [DecidableEq ι] (c : Checker ι μ)

/-- Whatever the program, the extensions and their answers: in a check that is not aborted, each visit of
a call of a member that nobody took over goes through the callee and the arguments, resolves the call,
and takes leave of it. If the compiler knows the member, or the type that counts for the object by then
cannot be judged, the extensions are not asked and nothing is missed. Otherwise they are asked for a
method once, and what they come up with is selected, missing or ambiguous. -/
theorem check_resolves_members (p : Program) (memory : μ) (h : (c.check p).finishes { memory }) :
    let journal := ((c.check p).after { memory }).journal.toList
    ∀ past call rest object name,
      journal = past ++ .settled (.ask (.beforeMethodCall call)) false :: rest →
      call.member? = some (object, name) →
      ∃ inside own told after, rest = inside ++ own ++ told ++ after ∧ ResolvesOthers call inside ∧
        Exchange (.notify (.afterMethodCall call)) () told ∧
        let receiver := typeIn (past ++ .settled (.ask (.beforeMethodCall call)) false :: inside) object
        if name.node.info.hasSymbol || receiver.isUnchecked then LeavesToCompiler own
        else Supplied call object name receiver own := by
  intro journal past call rest object name hsplit hmember
  have htyped := c.typed_check p memory
  obtain ⟨further, hcourse, hnone⟩ := c.check_course p memory
  rw [hnone h, List.append_nil] at hcourse
  obtain ⟨inside, own, told, after, rfl, htrail, hvariable, hown, htold⟩ := hcourse.exists_visit hsplit
  refine ⟨inside, own, told, after, rfl, htrail.resolvesOthers hvariable, htold, ?_⟩
  obtain ⟨hsymbol, hleaves⟩ | ⟨receiver, later, rfl, hsymbol, hresolved⟩ := hown.of_member hmember
  · intro receiver
    rwa [hsymbol, Bool.true_or, if_pos rfl]
  · -- What was looked up is what counted by then.
    have hlookup : ((c.check p).after { memory }).journal.toList =
        (past ++ .settled (.ask (.beforeMethodCall call)) false :: inside) ++
          .lookedUp object receiver :: (later ++ told ++ after) := by
      rw [show ((c.check p).after { memory }).journal.toList = _ from hsplit]
      simp
    have hreceiver : receiver = typeIn _ object := htyped.follows hlookup
    show if name.node.info.hasSymbol || (typeIn _ object).isUnchecked then _ else _
    rwa [← hreceiver, hsymbol, Bool.false_or]

end Checker

/-- A call of the member `find` of a repository, of which the compiler knows nothing. -/
def unknownMember : Program :=
  let object : Node :=
    .mk { role := .expression, kind := .identifier, start := 0, stop := 4,
          type := { text := "Repository" } } []
  let name : Node :=
    .mk { role := .name, kind := .identifier, start := 5, stop := 9, text := "find",
          hasSymbol := false } []
  let call := Node.bare .callExpression (.other "statements*")
    [.bare .propertyAccess .expression [object, name], .bare .identifier .argument]
  ⟨[⟨0, "member.ts", "", .bare .sourceFile (.other "") [call], []⟩]⟩

/-- An extension that comes up with two methods for every call, and prefers the first. -/
def prefersFirst : Checker Unit Unit where
  extensions := [.done ()]
  behaviour
    | _, .contribute missing => .done [{ name := missing.name }, { name := missing.name ++ "All" }]
    | _, .narrow candidates _ => .done (candidates.take 1)
    | _, call => Behaviour.neutral call
  label _ := .anonymous
  limit := 1

/-- Whether nobody takes over a call of a member that the compiler does not know. -/
def Event.leavesUnknown {ι : Type} : Event ι → Bool
  | settled (.ask (.beforeMethodCall call)) false => call.member?.any (!·.2.node.info.hasSymbol)
  | _ => false

theorem Event.exists_of_leavesUnknown {ι : Type} {e : Event ι} (h : e.leavesUnknown) :
    ∃ call object name, e = .settled (.ask (.beforeMethodCall call)) false ∧
      call.member? = some (object, name) ∧ name.node.info.hasSymbol = false := by
  unfold leavesUnknown at h
  split at h
  · obtain ⟨⟨object, name⟩, hmember, hsymbol⟩ := (Option.any_eq_true _ _).mp h
    exact ⟨_, object, name, rfl, hmember, by simpa using hsymbol⟩
  · cases h

/-- The extension is asked twice, and what it prefers is selected. -/
theorem check_resolves_members_unknownMember :
    let run := prefersFirst.check unknownMember
    let journal := (run.after { memory := () }).journal.toList
    run.finishes { memory := () } ∧
      (raisedIn journal).map (·.hook) = [.setup, .beforeMethodCall, .missingMethod, .ambiguousMethods,
        .methodSelection, .afterMethodCall, .finish] ∧
      ∃ past call rest object name,
        journal = past ++ .settled (.ask (.beforeMethodCall call)) false :: rest ∧
        call.member? = some (object, name) ∧ name.node.info.hasSymbol = false ∧
        ∃ inside own told after, rest = inside ++ own ++ told ++ after ∧ ResolvesOthers call inside ∧
          Exchange (.notify (.afterMethodCall call)) () told ∧
          let receiver := typeIn (past ++ .settled (.ask (.beforeMethodCall call)) false :: inside) object
          if name.node.info.hasSymbol || receiver.isUnchecked then LeavesToCompiler own
          else Supplied call object name receiver own := by
  have hfinishes : (prefersFirst.check unknownMember).finishes { memory := () } := by decide +kernel
  refine ⟨hfinishes, by decide +kernel, ?_⟩
  have hasked : ((prefersFirst.check unknownMember).after { memory := () }).journal.toList.any
      Event.leavesUnknown := by decide +kernel
  obtain ⟨e, he, hleaves⟩ := List.any_eq_true.mp hasked
  obtain ⟨call, object, name, rfl, hmember, hsymbol⟩ := Event.exists_of_leavesUnknown hleaves
  obtain ⟨past, rest, hsplit⟩ := List.append_of_mem he
  exact ⟨past, call, rest, object, name, hsplit, hmember, hsymbol,
    prefersFirst.check_resolves_members unknownMember () hfinishes past call rest object name hsplit
      hmember⟩

end ExtensibleCheck
