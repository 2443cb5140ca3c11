import ExtensibleCheck.Proofs.Walk.Inquiries
import ExtensibleCheck.Proofs.Walk.Selection

/-! Which types the extensions are shown. Whenever a method is missing, or a value does not fit where it is
assigned or returned, the types that decide the matter were looked up just before, when the walk had been
through everything below the node. So a call on what another call returns, or with it for an argument, is
judged by the type of the method that was selected for that call, however far the calls go on like this. -/

namespace ExtensibleCheck

open Occurrence

/-- What is assigned at a node: the value that a declaration begins with, the right operand of a plain
assignment, or what a compound one amounts to as a whole. -/
inductive Assigns (o : Occurrence) : Occurrence → Prop
  | initial {value} : o.treatment = .declaration → o.child? .initializer = some value → Assigns o value
  | plain {token operator value} : o.treatment = .binary → o.child? .operator = some token →
      token.kind = .assignment operator → operator.isCompound = false → o.child? .right = some value →
      Assigns o value
  | compound {token operator} : o.treatment = .binary → o.child? .operator = some token →
      token.kind = .assignment operator → operator.isCompound → Assigns o o

/-- What is returned at a node, and the place for which this is said: a statement returns its expression,
and an arrow function without a block its body. -/
inductive Returns (o : Occurrence) : (site value : Occurrence) → Prop
  | statement {value} : o.treatment = .return → o.child? .expression = some value → Returns o o value
  | arrowBody {body} : o.kind = .arrowFunction → o.child? .body = some body → body.kind ≠ .block →
      Returns o body body

theorem assigns_of_matter? {o value : Occurrence} {target : CheckedType}
    (h : o.matter? = some (.assigned target value)) : Assigns o value := by
  cases concerns_of_matter? h with
  | declaration ht hvalue => exact .initial ht hvalue
  | binary ht hvalue _ =>
      rw [Visitor.assignedValue?] at hvalue
      split at hvalue
      · rename_i operator hoperator
        obtain ⟨token, htoken, hkind⟩ := Option.map_eq_some_iff.mp hoperator
        split at hvalue
        · rename_i hcompound
          obtain rfl := Option.some.inj hvalue
          exact .compound ht htoken hkind hcompound
        · rename_i hplain
          exact .plain ht htoken hkind (Bool.eq_false_iff.mpr hplain) hvalue
      · cases hvalue

theorem returns_of_matter? {o site value : Occurrence} {declared : String}
    (h : o.matter? = some (.returned site value declared)) : Returns o site value := by
  cases concerns_of_matter? h with
  | «return» ht hvalue => exact .statement ht hvalue
  | arrowBody _ hkind hbody hblock => exact .arrowBody hkind hbody hblock

section

variable {ι : Type} {p : Program} {events journal past rest before inside first last : List (Event ι)}
  {n : Occurrence} {use : HookCall Occurrence CheckedType} {registry : Registry ι (List ι)}

/-- The types of some nodes as they are in force once the walk has been through everything below `n`, after
which nothing happened but that they were looked up. A type that came with the method selected for one of
the nodes meanwhile is among them, unless an extension stored another for the node since. -/
def ShownAfter (past : List (Event ι)) (n : Occurrence) (nodes : List Occurrence)
    (types : List CheckedType) : Prop :=
  ∃ before inside, past = before ++ inside ++ List.zipWith .lookedUp nodes types ∧
    Trail n.entered inside ∧ types = nodes.map (typeIn past) ∧
    ∀ node ∈ nodes, ∀ selected target since returned,
      inside = selected ++ .selected node target :: since → target.returns = some returned →
      (∀ e ∈ since, e.storing? node.id = none) → typeIn past node = returned

theorem typeIn_lookUps (nodes : List Occurrence) (types : List CheckedType) :
    typeIn (past ++ List.zipWith .lookedUp nodes types) = typeIn past := by
  refine funext fun o => typeIn_append fun e he => ?_
  obtain ⟨i, hi, rfl⟩ := List.mem_iff_getElem.mp he
  rw [List.getElem_zipWith]
  rfl

/-- No method is selected twice below a node. -/
theorem Trail.id_ne_of_selected (h : Trail n.entered inside) (hvariable : n.isVariable = false)
    {selected since : List (Event ι)} {call call' : Occurrence} {target target' : Candidate CheckedType}
    (hinside : inside = selected ++ .selected call target :: since)
    (hsince : .selected call' target' ∈ since) : call'.id ≠ call.id := by
  have hchildren : ∀ c ∈ n.entered, c ∈ n.children := fun _ hc => ((mem_entered_iff hvariable).mp hc).1
  have hmarks := h.nodup_marks (pairwise_apart n.nodup_entered hchildren)
    fun c hc => mem_lineage_self (hchildren c hc)
  rw [hinside] at hmarks
  intro hid
  exact mark?_ne_of_nodup_marks hmarks rfl (List.mem_append_right selected hsince)
    (by rw [Event.mark?, hid])

/-- The types that are looked up after the walk through what is below a node are those in force. -/
theorem shownAfter_of_lookUps (hfollows : ∀ {a e b}, past = a ++ e :: b → Event.FollowsFrom a e)
    (hvariable : n.isVariable = false) (htrail : Trail n.entered inside) {nodes : List Occurrence}
    {types : List CheckedType} (hlength : types.length = nodes.length)
    (hpast : past = before ++ inside ++ List.zipWith .lookedUp nodes types) :
    ShownAfter past n nodes types := by
  have hsplit : past = before ++ inside ++ (List.zipWith .lookedUp nodes types ++ []) := by
    rw [hpast, List.append_nil]
  have htypes : types = nodes.map (typeIn (before ++ inside)) :=
    types_eq_of_lookUps hfollows hlength hsplit
  have hsame : typeIn past = typeIn (before ++ inside) := by rw [hpast, typeIn_lookUps]
  refine ⟨before, inside, hpast, htrail, by rw [hsame, ← htypes], ?_⟩
  intro node _ selected target since returned hinside hreturns hsince
  rw [hsame, hinside, ← List.append_assoc, typeIn, lastTyping_of_selected hreturns
    (fun _ _ hagain => htrail.id_ne_of_selected hvariable hinside hagain) hsince]
  rfl

/-- A hook that is used neither for an announcement nor for a variable, and that wants an answer, is used
after the walk through everything below the node. -/
theorem Moment.exists_inside (h : Moment journal n (.raised use registry) first last)
    (hplain : use.announced? = none) (hother : use.hook ≠ .unresolvedVariable)
    (hasks : ∀ notice, use ≠ .notify notice) :
    ∃ opening inside own, first = opening ++ inside ++ own ∧ n.isVariable = false ∧
      Trail n.entered inside ∧ Piece journal n (own ++ .raised use registry :: last) := by
  have huse (ahead rest : List (Event ι)) : use ∈ raisedIn (ahead ++ .raised use registry :: rest) :=
    mem_raisedIn.mpr ⟨registry, List.mem_append_right ahead List.mem_cons_self⟩
  cases h with
  | «variable» _ hcheck =>
      exact absurd (congrArg HookCall.hook (hcheck.eq_of_raised (huse first last))) hother
  | @opening _ _ after _ _ hopening =>
      obtain ⟨_, _, hannounced, hasked⟩ := hopening.eq_of_raised (huse first after)
      rw [hasked, (announcement?_spec hannounced).2.2.1] at hplain
      cases hplain
  | @closing enters opening inside own _ hvariable hfree htrail hclosing =>
      cases enters with
      | true => exact ⟨opening, inside, own, rfl, hvariable, htrail, .closing hvariable hfree hclosing⟩
      | false =>
          have hraised := huse own last
          cases hclosing with
          | passed _ htold =>
              rw [htold.raised] at hraised
              exact absurd (List.mem_singleton.mp hraised) (hasks _)

theorem Course.exists_inside {further : List (Event ι)} (h : Course p (events ++ further))
    (hsplit : events = past ++ .raised use registry :: rest) (hplain : use.announced? = none)
    (hother : use.hook ≠ .unresolvedVariable) (hasks : ∀ notice, use ≠ .notify notice) :
    ∃ n before inside first last, past = before ++ inside ++ first ∧ n.isVariable = false ∧
      Trail n.entered inside ∧ Piece [] n (first ++ .raised use registry :: last) := by
  have hlonger : events ++ further = past ++ .raised use registry :: (rest ++ further) := by
    rw [hsplit, List.append_assoc, List.cons_append]
  rcases h.exists_moment consistent_nil hlonger with
    hambient | ⟨n, earlier, before, after, _, rfl, -, -, hmoment⟩
  · cases use with
    | notify notice => exact absurd rfl (hasks notice)
    | _ => cases hambient
  · obtain ⟨opening, inside, first, rfl, hvariable, htrail, hpiece⟩ :=
      hmoment.exists_inside hplain hother hasks
    exact ⟨n, earlier ++ opening, inside, first, after, by simp, hvariable, htrail, hpiece⟩

/-- When the extensions are asked for a method, the types of the object and of the arguments were looked up
just before. -/
theorem Course.exists_sought {further : List (Event ι)} {missing : MissingMethod Occurrence CheckedType}
    (h : Course p (events ++ further))
    (hfollows : ∀ {a e b}, events = a ++ e :: b → Event.FollowsFrom a e)
    (hsplit : events = past ++ .raised (.contribute missing) registry :: rest) :
    ∃ object name, missing.call.member? = some (object, name) ∧ missing.name = name.text ∧
      missing.arguments = missing.call.withRole .argument ∧
      ShownAfter past missing.call (object :: missing.arguments)
        (missing.receiver :: missing.argumentTypes) := by
  obtain ⟨n, before, inside, first, last, hpast, hvariable, htrail, hpiece⟩ :=
    h.exists_inside hsplit rfl (fun h => nomatch h) fun _ h => nomatch h
  obtain ⟨rfl, -, -, _, hresolution⟩ := hpiece.resolution_of_contributed
  obtain ⟨object, name, receiver, types, hmember, hlength, hmissing, hfirst⟩ := hresolution.of_contributed
  have harguments : missing.arguments = missing.call.withRole .argument := by rw [hmissing]
  have hreceiver : missing.receiver = receiver := by rw [hmissing]
  have htypes : missing.argumentTypes = types := by rw [hmissing]
  have hname : missing.name = name.text := by rw [hmissing]
  rw [harguments, hreceiver, htypes]
  exact ⟨object, name, hmember, hname, rfl, shownAfter_of_lookUps (follows_before hfollows hsplit)
    hvariable htrail (congrArg Nat.succ hlength) (hfirst ▸ hpast)⟩

/-- When an extension is asked about a mistake, the type that decides it was looked up just before. -/
theorem Course.exists_shown {further : List (Event ι)} {question : Question Occurrence CheckedType}
    (h : Course p (events ++ further))
    (hfollows : ∀ {a e b}, events = a ++ e :: b → Event.FollowsFrom a e)
    (hsplit : events = past ++ .raised (.ask question) registry :: rest)
    (hhook : question.hook ∈ [.incompatibleAssignment, .incompatibleReturn]) :
    ∃ n matter type, n.matter? = some matter ∧ question = matter.question n type ∧
      ShownAfter past n [matter.subject] [type] := by
  have hplain : (HookCall.ask question).announced? = none ∧ question.hook ≠ .unresolvedVariable := by
    cases question with
    | incompatibleAssignment | incompatibleReturn => exact ⟨rfl, fun h => nomatch h⟩
    | _ => simp [Question.hook] at hhook
  obtain ⟨n, before, inside, first, last, hpast, hvariable, htrail, hpiece⟩ :=
    h.exists_inside hsplit hplain.1 hplain.2 fun _ h => nomatch h
  obtain ⟨-, matter, hmatter, hinquiry⟩ :=
    hpiece.inquiry_of_raised (List.mem_append_right first List.mem_cons_self) hplain.1 hplain.2
  obtain ⟨type, _, _, -, rfl, -, hfirst, -⟩ := hinquiry.of_raised
  have hlookUps : first = List.zipWith .lookedUp [matter.subject] [type] := by
    cases matter with
    | property | element => simp [Matter.question, Question.hook] at hhook
    | assigned | returned => exact hfirst
  exact ⟨n, matter, type, hmatter, rfl, shownAfter_of_lookUps (follows_before hfollows hsplit) hvariable
    htrail rfl (hlookUps ▸ hpast)⟩

end

open Run Session SessionState

namespace Checker

variable {ι μ : Type} [DecidableEq ι] (c : Checker ι μ)

/-- Whatever the program, the extensions and their answers, and however the check ends. When the extensions
are asked for a missing method, they are shown the types in force of the object and of the arguments, one
for each argument and in their order. When a value does not fit where it is assigned or returned, they are
shown the type in force of the value. The walk has been through all of these expressions by then, so the
types of the methods that were selected for calls among them count. What is reported afterwards tells of
the types from before anybody was asked, whatever was stored meanwhile. -/
theorem check_shows_types (p : Program) (memory : μ) :
    let journal := ((c.check p).after { memory }).journal.toList
    (∀ past missing registry rest, journal = past ++ .raised (.contribute missing) registry :: rest →
      ∃ object name, missing.call.member? = some (object, name) ∧ missing.name = name.text ∧
        missing.arguments = missing.call.withRole .argument ∧
        ShownAfter past missing.call (object :: missing.arguments)
          (missing.receiver :: missing.argumentTypes)) ∧
    (∀ past target assigned o registry rest,
      journal = past ++ .raised (.ask (.incompatibleAssignment target assigned o)) registry :: rest →
      ∃ value, Assigns o value ∧ ShownAfter past o [value] [assigned]) ∧
    (∀ past site inferred registry rest,
      journal = past ++ .raised (.ask (.incompatibleReturn site inferred)) registry :: rest →
      ∃ n value, Returns n site value ∧ ShownAfter past n [value] [inferred]) ∧
    ∀ past d rest, journal = past ++ .reported d :: rest → d.code ≠ .extensionError →
      ∃ n before stretch, past = before ++ stretch ∧ Complaint (typeIn before) n stretch d := by
  have hfollows {past : List (Event ι)} {e : Event ι} {rest : List (Event ι)}
      (hsplit : ((c.check p).after { memory }).journal.toList = past ++ e :: rest) :
      e.FollowsFrom past := (c.typed_check p memory).follows hsplit
  obtain ⟨further, hcourse, -⟩ := c.check_course p memory
  generalize ((c.check p).after { memory }).journal.toList = journal at hfollows hcourse ⊢
  refine ⟨fun past missing registry rest hsplit => hcourse.exists_sought hfollows hsplit,
    fun past target assigned o registry rest hsplit => ?_,
    fun past site inferred registry rest hsplit => ?_, fun past d rest hsplit hd => ?_⟩
  · obtain ⟨n, matter, type, hmatter, hquestion, hshown⟩ :=
      hcourse.exists_shown hfollows hsplit List.mem_cons_self
    cases matter with
    | assigned target' value =>
        cases hquestion
        exact ⟨value, assigns_of_matter? hmatter, hshown⟩
    | property | element | returned => cases hquestion
  · obtain ⟨n, matter, type, hmatter, hquestion, hshown⟩ :=
      hcourse.exists_shown hfollows hsplit (List.mem_cons_of_mem _ List.mem_cons_self)
    cases matter with
    | returned site' value declared =>
        cases hquestion
        exact ⟨n, value, returns_of_matter? hmatter, hshown⟩
    | property | element | assigned => cases hquestion
  · obtain ⟨n, before, stretch, hpast, -, hcomplaint⟩ :=
      hcourse.exists_complaint consistent_nil hfollows hd hsplit
    exact ⟨n, before, stretch, hpast, hcomplaint⟩

end Checker

/-- A call of a method that the compiler does not know, on an object and with some arguments. -/
def memberCall (role : Role) (object : Node) (name : String) (arguments : List Node) : Node :=
  let named : Node :=
    .mk { role := .name, kind := .identifier, start := 0, stop := 0, text := name,
          hasSymbol := false } []
  .bare .callExpression role (.bare .propertyAccess .expression [object, named] :: arguments)

/-- A file with `repository.find().save(repository.load())`. -/
def chainedCalls : SourceFile :=
  let repository : Node :=
    .mk { role := .expression, kind := .identifier, start := 0, stop := 0,
          type := { text := "Repository" } } []
  let call := memberCall (.other "statements*") (memberCall .expression repository "find" []) "save"
    [memberCall .argument repository "load" []]
  ⟨0, "chain.ts", "", .bare .sourceFile (.other "") [call], []⟩

/-- An extension that comes up with a method for every call but that of `save`, for which it only stores
another type for the arguments. -/
def findsAndLoads : Checker Unit Unit where
  extensions := [.done ()]
  behaviour
    | _, .contribute missing =>
        match missing.name, missing.arguments with
        | "save", argument :: _ =>
            .request (.storeType argument (some { text := "number" })) fun _ => .done []
        | name, _ => .done [{ name, returns := some { text := name ++ "Result" } }]
    | _, call => Behaviour.neutral call
  label _ := .anonymous
  limit := 1

/-- The last call is shown the types of the two methods that were made up before, although the compiler
knows nothing of either, and they are in the message too. -/
theorem check_shows_types_chainedCalls :
    let s := (findsAndLoads.check ⟨[chainedCalls]⟩).after { memory := () }
    (s.journal.toList.filterMap fun
        | .raised (.contribute missing) _ =>
            some (missing.name, missing.receiver.text, missing.argumentTypes.map (·.text))
        | _ => none) =
      [("find", "Repository", []), ("load", "Repository", []), ("save", "findResult", ["loadResult"])] ∧
    s.verdict.findings.diagnostics.map (·.message) =
      ["Cannot find matching method findResult#save(loadResult)"] ∧
    ∀ past missing registry rest,
      s.journal.toList = past ++ .raised (.contribute missing) registry :: rest →
      ∃ object name, missing.call.member? = some (object, name) ∧ missing.name = name.text ∧
        missing.arguments = missing.call.withRole .argument ∧
        ShownAfter past missing.call (object :: missing.arguments)
          (missing.receiver :: missing.argumentTypes) :=
  ⟨by decide +kernel, by decide +kernel, (findsAndLoads.check_shows_types ⟨[chainedCalls]⟩ ()).1⟩

end ExtensibleCheck
