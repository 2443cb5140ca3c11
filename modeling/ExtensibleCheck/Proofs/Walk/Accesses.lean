import ExtensibleCheck.Proofs.Walk.Inquiries
import ExtensibleCheck.Proofs.Walk.Ownership

/-! Which accesses of members are offered as unresolved. A property that is called as a method is left to
the resolution of the call. Every other property, and every attribute by a key that is written out, is
looked at once, when all below it was visited: whether anything is stored for it and which type its object
has by then decides whether it is offered. So each access comes up as one thing at most, and once. -/

namespace ExtensibleCheck

open Occurrence

/-- The hook that a matter is put to the extensions by. -/
def Matter.hook : Matter → Hook
  | property _ _ => .unresolvedProperty
  | element _ _ => .unresolvedAttribute
  | assigned _ _ => .incompatibleAssignment
  | returned _ _ _ => .incompatibleReturn

namespace Matter

variable (matter : Matter) (n : Occurrence) (type : CheckedType)

theorem hook_question : (matter.question n type).hook = matter.hook := by
  cases matter <;> rfl

theorem node_question (h : matter.isAccess) : (matter.question n type).node = n := by
  cases matter with
  | property | element => rfl
  | assigned | returned => cases h

theorem isAccess_iff : matter.isAccess ↔ matter.hook ∈ [.unresolvedProperty, .unresolvedAttribute] := by
  cases matter <;> simp [isAccess, hook]

end Matter

section

variable {ι : Type} {p : Program} {events journal : List (Event ι)} {n : Occurrence} {matter : Matter}
  {hook : Hook} {use : HookCall Occurrence CheckedType} {registry : Registry ι (List ι)}

/-- How often a hook was used for the node with an address. -/
def timesRaised (hook : Hook) (id : NodeId) (events : List (Event ι)) : ℕ :=
  events.countP fun e => e.raised?.any fun use => use.hook = hook && use.node?.any (·.id = id)

/-- An access is looked at once, right after everything below it was visited. Then it is offered once, if
nothing is stored for it and the type of its object fails, and otherwise never. -/
def LookedAtOnce (journal : List (Event ι)) (n object : Occurrence) (hook : Hook)
    (fails : CheckedType → Bool) : Prop :=
  ∃ before inside rest,
    let past := before ++ inside
    journal = past ++ .probed n (lastTyping past n.id).isSome :: rest ∧ Trail n.entered inside ∧
      (∀ found, .probed n found ∉ past ++ rest) ∧
      timesRaised hook n.id journal =
        if lastTyping past n.id = none ∧ fails (typeIn past object) then 1 else 0

theorem exists_of_timesRaised {id : NodeId} (h : timesRaised hook id events ≠ 0) :
    ∃ use registry m, .raised use registry ∈ events ∧ use.hook = hook ∧ use.node? = some m ∧ m.id = id := by
  obtain ⟨e, he, hraised⟩ := List.countP_pos_iff.mp (Nat.pos_of_ne_zero h)
  cases e with
  | raised use registry =>
      have hboth : use.hook = hook ∧ use.node?.any (·.id = id) := by
        simpa [Event.raised?] using hraised
      obtain ⟨m, hm, hid⟩ := (Option.any_eq_true _ _).mp hboth.2
      exact ⟨use, registry, m, he, hboth.1, hm, of_decide_eq_true hid⟩
  | _ => cases hraised

/-- Only a question that is neither an announcement nor about a variable has the hook of an access. -/
theorem exists_question_of_hook (h : use.hook ∈ [.unresolvedProperty, .unresolvedAttribute]) :
    ∃ question, use = .ask question ∧ (HookCall.ask question).announced? = none ∧
      question.hook ≠ .unresolvedVariable := by
  cases use with
  | ask question =>
      refine ⟨question, rfl, ?_⟩
      cases question with
      | unresolvedProperty | unresolvedAttribute => exact ⟨rfl, fun h => nomatch h⟩
      | _ => simp [HookCall.hook, Question.hook] at h
  | narrow | contribute => simp [HookCall.hook] at h
  | notify notice => cases notice <;> simp [HookCall.hook, Notice.hook] at h

/-- An access is not offered twice. -/
theorem timesRaised_le_one (h : (marks events).Nodup)
    (hhook : hook ∈ [.unresolvedProperty, .unresolvedAttribute]) (id : NodeId) :
    timesRaised hook id events ≤ 1 := by
  refine countP_le_one_of_nodup_marks h fun e hraised => (?_ : e.mark? = some (.offered, id))
  cases e with
  | raised use registry =>
      have hboth : use.hook = hook ∧ use.node?.any (·.id = id) := by
        simpa [Event.raised?] using hraised
      obtain ⟨rfl, hnode⟩ := hboth
      obtain ⟨question, rfl, -, hother⟩ := exists_question_of_hook hhook
      have hid : question.node.id = id := by simpa [HookCall.node?] using hnode
      cases question with
      | unresolvedProperty | unresolvedAttribute => exact congrArg (fun id => some (Landmark.offered, id)) hid
      | _ => simp [HookCall.hook, Question.hook] at hhook
  | _ => cases hraised

/-- Only a property that is no callee is reported as unresolved, right after nobody took care of it. -/
theorem Complaint.of_unresolvedProperty {type : Occurrence → CheckedType} {d : Diagnostic}
    (h : Complaint type n events d) (hcode : d.code = .unresolvedProperty) :
    ∃ name before, events = before ++ [.settled (.ask (.unresolvedProperty n)) false] ∧
      n.isCallee = false ∧ n.child? .name = some name ∧ d.location = some name.location := by
  cases h with
  | «variable» | missing | ambiguous => cases hcode
  | @inquiry matter code place asked hmatter hstands hmistake hasked =>
      have hmistaken := mistaken_of_matter? hmatter hstands.arises (type matter.subject)
      obtain ⟨asking, rfl⟩ := hasked.exists_settled
      cases matter with
      | property object name =>
          obtain ⟨_, hplace, hsame⟩ := Option.map_eq_some_iff.mp hmistake
          cases hsame
          cases hmistaken with
          | property _ hcallee =>
              refine ⟨place, Matter.probing n (.property object name) ++
                .lookedUp object (type object) :: asking, ?_, hcallee, hplace, rfl⟩
              rw [List.append_assoc, List.cons_append]
              rfl
      | element | assigned | returned =>
          cases hmistake
          cases hcode

/-- A method is missing on behalf of what a call calls, and the walk comes to that by way of the call. -/
theorem Course.callee_of_contributed (h : Course p journal) (hnumbers : (p.files.map (·.number)).Nodup)
    {missing : MissingMethod Occurrence CheckedType} {callee : Occurrence}
    (hmissing : .contribute missing ∈ raisedIn journal)
    (hcalled : missing.call.child? .expression = some callee) :
    p.Reaches journal callee ∧ callee.isCallee := by
  obtain ⟨registry, hmem⟩ := mem_raisedIn.mp hmissing
  obtain ⟨past, rest, hsplit⟩ := List.append_of_mem hmem
  rcases h.exists_piece (h.consistent hnumbers fun _ he => he) hsplit with
    hambient | ⟨call, _, _, _, _, -, -, hcall, hpiece⟩
  · cases hambient
  obtain ⟨rfl, hvariable, hfree, _, hresolution⟩ := hpiece.resolution_of_contributed
  obtain ⟨_, _, _, _, hmember, -⟩ := hresolution.of_contributed
  have hkind : missing.call.kind = .callExpression := kind_of_member? hmember
  have hentered : callee ∈ missing.call.entered := by
    rw [entered, treatment_of_kind (by simp [hkind]), hkind]
    exact List.mem_append_left _
      (mem_withRole.mpr ⟨mem_children_of_child? hcalled, role_of_child? hcalled⟩)
  obtain ⟨hchild, hleads⟩ := (mem_entered_iff hvariable).mp hentered
  obtain ⟨top, htop⟩ := hcall.exists_mem_lineage
  exact ⟨hcall.child hchild hleads hfree, isCallee_of_child? htop hkind hcalled⟩

theorem treatment_of_propertyAccess (h : n.kind = .propertyAccess) : n.treatment = .propertyAccess := by
  rw [treatment_of_kind (by simp [h]), h]
  rfl

theorem treatment_of_elementAccess (h : n.kind = .elementAccess) : n.treatment = .elementAccess := by
  rw [treatment_of_kind (by simp [h]), h]
  rfl

variable (h : Course p journal) (hnumbers : (p.files.map (·.number)).Nodup)
  (hfollows : ∀ {past e rest}, journal = past ++ e :: rest → Event.FollowsFrom past e)

include h hnumbers hfollows in
/-- A property is reported as unresolved only if it is no callee, where the walk reaches it. -/
theorem Course.of_unresolvedProperty {past rest : List (Event ι)} {d : Diagnostic}
    (hsplit : journal = past ++ .reported d :: rest) (hcode : d.code = .unresolvedProperty) :
    ∃ n name before, past = before ++ [.settled (.ask (.unresolvedProperty n)) false] ∧
      p.Reaches journal n ∧ n.isCallee = false ∧ n.child? .name = some name ∧
      d.location = some name.location := by
  have hwhole : Course p (journal ++ []) := by rwa [List.append_nil]
  have hconsistent : Consistent journal (journal ++ []) :=
    hwhole.consistent hnumbers fun _ => List.mem_append_left []
  obtain ⟨n, before, stretch, rfl, hreaches, hcomplaint⟩ :=
    hwhole.exists_complaint hconsistent hfollows (by rw [hcode]; decide) hsplit
  obtain ⟨name, asking, rfl, hcallee, hname, hlocation⟩ := hcomplaint.of_unresolvedProperty hcode
  exact ⟨n, name, before ++ asking, (List.append_assoc ..).symm, hreaches, hcallee, hname, hlocation⟩

variable (hreaches : p.Reaches journal n)

include h hfollows hreaches

include hnumbers in
/-- An access is offered only after it was looked at in vain. -/
theorem Course.stands_of_raised (hhook : hook ∈ [.unresolvedProperty, .unresolvedAttribute])
    (hraised : timesRaised hook n.id journal ≠ 0) : ∃ matter before rest, n.matter? = some matter ∧
      matter.hook = hook ∧ journal = before ++ .probed n false :: rest ∧
      matter.Stands n (typeIn before matter.subject) := by
  obtain ⟨use, registry, m, hmem, rfl, hnode, hid⟩ := exists_of_timesRaised hraised
  obtain ⟨question, rfl, hplain, hother⟩ := exists_question_of_hook hhook
  obtain ⟨past, rest, hsplit⟩ := List.append_of_mem hmem
  rcases h.exists_piece (h.consistent hnumbers fun _ he => he) hsplit with
    hambient | ⟨o, before, first, last, after, rfl, rfl, ho, hpiece⟩
  · cases hambient
  obtain ⟨-, matter, hmatter, hinquiry⟩ :=
    hpiece.inquiry_of_raised (List.mem_append_right first List.mem_cons_self) hplain hother
  obtain ⟨type, -, -, hstands, rfl, -, rfl, -⟩ := hinquiry.of_raised
  have hhook' : matter.hook = (matter.question o type).hook := (matter.hook_question o type).symm
  have haccess : matter.isAccess := matter.isAccess_iff.mpr (hhook' ▸ hhook)
  obtain rfl : o = m := (matter.node_question o type haccess).symm.trans (Option.some.inj hnode)
  obtain rfl : o = n := ho.eq_of_id hreaches hnumbers hid
  rw [Matter.probing, if_pos haccess] at hsplit
  have hlookup : journal = (before ++ [.probed o false]) ++ .lookedUp matter.subject type ::
      (.raised (.ask (matter.question o type)) registry :: (last ++ after)) := by
    rw [hsplit]
    simp
  have htype : type = typeIn (before ++ [.probed o false]) matter.subject := hfollows hlookup
  rw [typeIn_concat rfl] at htype
  rw [List.append_assoc, List.singleton_append] at hlookup
  exact ⟨matter, before, _, hmatter, hhook', hlookup, htype ▸ hstands⟩

/-- An access that is reached is looked at right after all below it was visited, and offered then if nothing
settles it. -/
theorem Course.exists_look (hvariable : n.isVariable = false) (hmatter : n.matter? = some matter)
    (haccess : matter.isAccess) (harises : matter.arises n) : ∃ before inside rest,
      journal = before ++ inside ++ .probed n (lastTyping (before ++ inside) n.id).isSome :: rest ∧
      Trail n.entered inside ∧
      (lastTyping (before ++ inside) n.id = none → matter.hasSymbol = false →
        matter.passes (typeIn (before ++ inside) matter.subject) = false →
        ∃ type registry, .raised (.ask (matter.question n type)) registry ∈ journal) := by
  obtain ⟨before, passage, after, hsplit, hpassage⟩ := h.exists_passage hreaches
  obtain ⟨opening, inside, own, rfl, -, htrail, hinquiry⟩ := hpassage.exists_inquiry hvariable hmatter
  have hown : journal = (before ++ opening ++ inside) ++ (own ++ after) := by
    rw [hsplit]
    simp
  -- Whoever asks whether anything is stored, and for a type, gets what is in force by then.
  have hlook {found : Bool} {rest : List (Event ι)} (h : own ++ after = .probed n found :: rest) :
      found = (lastTyping (before ++ opening ++ inside) n.id).isSome :=
    hfollows (e := .probed n found) (h ▸ hown)
  have htype {type : CheckedType} {rest : List (Event ι)}
      (h : own ++ after = .probed n false :: .lookedUp matter.subject type :: rest) :
      type = typeIn (before ++ opening ++ inside) matter.subject := by
    have hprobed : journal = (before ++ opening ++ inside ++ [.probed n false]) ++
        .lookedUp matter.subject type :: rest := by
      rw [hown, h, List.append_assoc _ [_], List.singleton_append]
    have hlookup : type = typeIn (before ++ opening ++ inside ++ [.probed n false]) matter.subject :=
      hfollows (e := .lookedUp matter.subject type) hprobed
    exact hlookup.trans (typeIn_concat rfl)
  refine ⟨before ++ opening, inside, ?_⟩
  cases hinquiry with
  | spared hspared =>
      rw [harises] at hspared
      cases hspared
  | @vouched found _ _ hpasses =>
      obtain rfl := hlook rfl
      refine ⟨after, hown, htrail, fun hnone hsymbol => ?_⟩
      rw [hnone, hsymbol] at hpasses
      cases hpasses
  | @settled type _ _ hpasses =>
      rw [Matter.probing, if_pos haccess] at hown hlook htype
      obtain rfl := htype rfl
      refine ⟨_, hlook rfl ▸ hown, htrail, fun _ _ hfails => ?_⟩
      rw [hpasses] at hfails
      cases hfails
  | @offered type code place events hstands _ hoffered =>
      obtain ⟨registry, further, rfl, -⟩ := hoffered.begins
      rw [Matter.probing, if_pos haccess] at hown hlook htype
      refine ⟨_, hlook rfl ▸ hown, htrail, fun _ _ _ => ⟨type, registry, ?_⟩⟩
      rw [hown]
      simp

include hnumbers in
/-- So it is looked at once, and offered once or never. -/
theorem Course.lookedAtOnce (hvariable : n.isVariable = false) (hmatter : n.matter? = some matter)
    (haccess : matter.isAccess) (harises : matter.arises n) :
    LookedAtOnce journal n matter.subject matter.hook
      fun type => !matter.hasSymbol && !matter.passes type := by
  have hmarks : (marks journal).Nodup := h.nodup_marks hnumbers
  have hhook := matter.isAccess_iff.mp haccess
  obtain ⟨before, inside, rest, hsplit, htrail, hoffers⟩ :=
    h.exists_look hfollows hreaches hvariable hmatter haccess harises
  have hmark (found : Bool) : (Event.probed (ι := ι) n found).mark? = some (.sought, n.id) := rfl
  refine ⟨before, inside, rest, hsplit, htrail, fun found hmem => ?_, ?_⟩
  · rw [hsplit] at hmarks
    exact mark?_ne_of_nodup_marks hmarks (hmark _) hmem (hmark found)
  split
  · rename_i hopen
    have hfails : matter.hasSymbol = false ∧
        matter.passes (typeIn (before ++ inside) matter.subject) = false := by simpa using hopen.2
    obtain ⟨type, registry, hmem⟩ := hoffers hopen.1 hfails.1 hfails.2
    have hsome : 0 < timesRaised matter.hook n.id journal := by
      refine List.countP_pos_iff.mpr ⟨_, hmem, ?_⟩
      have hnode := matter.node_question n type haccess
      simp [Event.raised?, HookCall.hook, HookCall.node?, matter.hook_question, hnode]
    have hone := timesRaised_le_one hmarks hhook n.id
    omega
  · rename_i hsettled
    by_contra hraised
    obtain ⟨matter', before', rest', hmatter', -, hsplit', hstands⟩ :=
      h.stands_of_raised hnumbers hfollows hreaches hhook hraised
    obtain rfl : matter = matter' := Option.some.inj (hmatter.symm.trans hmatter')
    rw [hsplit] at hmarks
    obtain ⟨rfl, hfound, -⟩ := append_cons_inj_of_nodup_marks hmarks (hmark _) (hmark false)
      (hsplit.symm.trans hsplit')
    have hnone : (lastTyping (before ++ inside) n.id).isSome = false := by
      injection hfound
    refine hsettled ⟨by simpa using hnone, ?_⟩
    simp [hstands.unknown, hstands.unsettled]

include hnumbers

/-- The callee of a call is not offered as a property. -/
theorem Course.not_raised_of_isCallee (hkind : n.kind = .propertyAccess) (hcallee : n.isCallee) :
    timesRaised .unresolvedProperty n.id journal = 0 := by
  by_contra hraised
  obtain ⟨matter, -, -, hmatter, -⟩ :=
    h.stands_of_raised hnumbers hfollows hreaches List.mem_cons_self hraised
  rw [matter?, treatment_of_propertyAccess hkind, if_pos hcallee] at hmatter
  cases hmatter

/-- Any other property is looked at once, and no method is missing on behalf of it. -/
theorem Course.property_lookedAtOnce {object name : Occurrence} (hname : n.isShorthandName = false)
    (hkind : n.kind = .propertyAccess) (hcallee : ¬ n.isCallee)
    (hobject : n.child? .expression = some object) (hchild : n.child? .name = some name) :
    LookedAtOnce journal n object .unresolvedProperty
        (fun receiver => !name.node.info.hasSymbol && !receiver.isUnchecked) ∧
      ∀ missing callee, .contribute missing ∈ raisedIn journal →
        missing.call.child? .expression = some callee → callee.id ≠ n.id := by
  have ht := treatment_of_propertyAccess hkind
  have hmatter : n.matter? = some (.property object name) := by
    rw [matter?, ht, if_neg hcallee, hobject, hchild]
    rfl
  have hvariable : n.isVariable = false := isVariable_eq_false hname (by rw [ht]; decide)
  refine ⟨h.lookedAtOnce hnumbers hfollows hreaches hvariable hmatter rfl rfl,
    fun missing callee hmissing hcalled hid => hcallee ?_⟩
  obtain ⟨hcallee, hcalls⟩ := h.callee_of_contributed hnumbers hmissing hcalled
  exact hcallee.eq_of_id hreaches hnumbers hid ▸ hcalls

/-- An attribute is looked at once if its key is written out, and else it is not offered. -/
theorem Course.attribute_lookedAtOnce {object key : Occurrence} (hname : n.isShorthandName = false)
    (hkind : n.kind = .elementAccess) (hobject : n.child? .expression = some object)
    (hkey : n.child? .argumentExpression = some key) :
    if key.kind = .stringLiteral ∨ key.kind = .plainTemplate then
      LookedAtOnce journal n object .unresolvedAttribute fun receiver =>
        !(receiver.isUnchecked || key.text ∈ receiver.properties || 0 < receiver.indexSignatures)
    else timesRaised .unresolvedAttribute n.id journal = 0 := by
  have ht := treatment_of_elementAccess hkind
  have hmatter : n.matter? = some (.element object key) := by
    rw [matter?, ht, hobject, hkey]
    rfl
  have hvariable : n.isVariable = false := isVariable_eq_false hname (by rw [ht]; decide)
  split
  · rename_i hwritten
    exact h.lookedAtOnce hnumbers hfollows hreaches hvariable hmatter rfl
      (by simpa [Matter.arises] using hwritten)
  · rename_i hcomputed
    by_contra hraised
    obtain ⟨matter, _, _, hmatter', -, -, hstands⟩ := h.stands_of_raised hnumbers hfollows hreaches
      (List.mem_cons_of_mem _ List.mem_cons_self) hraised
    obtain rfl : .element object key = matter := Option.some.inj (hmatter.symm.trans hmatter')
    exact hcomputed (by simpa [Matter.arises] using hstands.arises)

end

open Run Session SessionState

namespace Checker

variable {ι μ : Type} [DecidableEq ι] (c : Checker ι μ)

/-- Whatever the program, the extensions and their answers, in a check that is not aborted. A property that
the walk reaches as the callee of a call is never offered. Any other, what `new` creates and what stands in
parentheses included, is looked at once, after its object was visited, and offered once if nothing is
stored for it, its name has no symbol and the type of its object by then can be judged; no method is ever
missing on behalf of it. An attribute is looked at once if its key is written out, and offered once if
nothing is stored for it and the type of its object can be judged and has neither that property nor an
index signature; else it is never offered. Only a property of the former kind that nobody takes care of is
reported as unresolved. -/
theorem check_partitions_accesses (p : Program) (memory : μ) (h : (c.check p).finishes { memory })
    (hnumbers : (p.files.map (·.number)).Nodup) :
    let journal := ((c.check p).after { memory }).journal.toList
    (∀ n object name, p.Reaches journal n → n.isShorthandName = false → n.kind = .propertyAccess →
      n.child? .expression = some object → n.child? .name = some name →
      if n.isCallee then timesRaised .unresolvedProperty n.id journal = 0
      else LookedAtOnce journal n object .unresolvedProperty
          (fun receiver => !name.node.info.hasSymbol && !receiver.isUnchecked) ∧
        ∀ missing callee, .contribute missing ∈ raisedIn journal →
          missing.call.child? .expression = some callee → callee.id ≠ n.id) ∧
    (∀ n object key, p.Reaches journal n → n.isShorthandName = false → n.kind = .elementAccess →
      n.child? .expression = some object → n.child? .argumentExpression = some key →
      if key.kind = .stringLiteral ∨ key.kind = .plainTemplate then
        LookedAtOnce journal n object .unresolvedAttribute fun receiver =>
          !(receiver.isUnchecked || key.text ∈ receiver.properties || 0 < receiver.indexSignatures)
      else timesRaised .unresolvedAttribute n.id journal = 0) ∧
    ∀ past d rest, journal = past ++ .reported d :: rest → d.code = .unresolvedProperty →
      ∃ n name before, past = before ++ [.settled (.ask (.unresolvedProperty n)) false] ∧
        p.Reaches journal n ∧ n.isCallee = false ∧ n.child? .name = some name ∧
        d.location = some name.location := by
  have hfollows {past : List (Event ι)} {e : Event ι} {rest : List (Event ι)}
      (hsplit : ((c.check p).after { memory }).journal.toList = past ++ e :: rest) :
      e.FollowsFrom past := (c.typed_check p memory).follows hsplit
  obtain ⟨rest, hcourse, hrest⟩ := c.check_course p memory
  rw [hrest h, List.append_nil] at hcourse
  generalize ((c.check p).after { memory }).journal.toList = journal at hfollows hcourse ⊢
  refine ⟨fun n object name hreaches hname hkind hobject hchild => ?_,
    fun n object key hreaches hname hkind hobject hkey =>
      hcourse.attribute_lookedAtOnce hnumbers hfollows hreaches hname hkind hobject hkey,
    fun past d rest hsplit hcode => hcourse.of_unresolvedProperty hnumbers hfollows hsplit hcode⟩
  split
  · rename_i hcallee
    exact hcourse.not_raised_of_isCallee hnumbers hfollows hreaches hkind hcallee
  · rename_i hcallee
    exact hcourse.property_lookedAtOnce hnumbers hfollows hreaches hname hkind hcallee hobject hchild

end Checker

/-- An access of the property `name` of a value of type `A` that has no such property, as a callee. -/
def strangeProperty (name : String) : Node :=
  .bare .propertyAccess .expression
    [.mk { role := .expression, kind := .identifier, start := 0, stop := 0, type := { text := "A" } } [],
      .mk { role := .name, kind := .identifier, start := 0, stop := 0, text := name,
            hasSymbol := false } []]

/-- The access `a["k"]` of a value of type `A` that has no property `k`. -/
def strangeAttribute : Node :=
  .bare .elementAccess (.other "statements*")
    [.mk { role := .expression, kind := .identifier, start := 0, stop := 0, type := { text := "A" } } [],
      .mk { role := .argumentExpression, kind := .stringLiteral, start := 0, stop := 0, text := "k" } []]

/-- A file with `new a.created()`, `a.called()` and `a["k"]`. -/
def strangeAccesses : SourceFile :=
  let created := Node.bare .newExpression (.other "statements*") [strangeProperty "created"]
  let called := Node.bare .callExpression (.other "statements*") [strangeProperty "called"]
  ⟨0, "accesses.ts", "", .bare .sourceFile (.other "") [created, called, strangeAttribute], []⟩

/-- Whether somebody took over what was announced. -/
def Event.takesOver {ι : Type} : Event ι → Bool
  | settled (.ask _) taken => taken
  | _ => false

/-- What is created is offered as a property and what is called as a method, each once. -/
theorem check_partitions_accesses_strangeAccesses :
    let run := unextended.check ⟨[strangeAccesses]⟩
    let journal := (run.after { memory := () }).journal.toList
    run.finishes { memory := () } ∧
      (raisedIn journal).map (·.hook) = [.setup, .beforeMethodCall, .unresolvedProperty, .afterMethodCall,
        .beforeMethodCall, .missingMethod, .afterMethodCall, .unresolvedAttribute, .finish] ∧
      ∃ created called keyed object object' : Occurrence, created.node = strangeProperty "created" ∧
        called.node = strangeProperty "called" ∧ keyed.node = strangeAttribute ∧
        LookedAtOnce journal created object .unresolvedProperty (fun receiver => !receiver.isUnchecked) ∧
        timesRaised .unresolvedProperty called.id journal = 0 ∧
        LookedAtOnce journal keyed object' .unresolvedAttribute fun receiver =>
          !(receiver.isUnchecked || "k" ∈ receiver.properties || 0 < receiver.indexSignatures) := by
  have hfinishes : (unextended.check ⟨[strangeAccesses]⟩).finishes { memory := () } := by decide +kernel
  have hfree : ∀ e ∈ ((unextended.check ⟨[strangeAccesses]⟩).after { memory := () }).journal.toList,
      e.takesOver = false := by decide +kernel
  refine ⟨hfinishes, by decide +kernel, ?_⟩
  obtain ⟨hproperties, hattributes, -⟩ :=
    unextended.check_partitions_accesses ⟨[strangeAccesses]⟩ () hfinishes (by decide)
  generalize ((unextended.check ⟨[strangeAccesses]⟩).after { memory := () }).journal.toList = journal
    at hproperties hattributes hfree ⊢
  have hnobody (o : Occurrence) : ¬ o.TakenOver journal := by
    rintro ⟨before, after, -, hmem⟩
    cases hfree _ hmem
  let root := strangeAccesses.rootOccurrence
  let new : Occurrence := root.below (.bare .newExpression (.other "statements*")
    [strangeProperty "created"]) 0
  let call : Occurrence := root.below (.bare .callExpression (.other "statements*")
    [strangeProperty "called"]) 1
  let created : Occurrence := new.below (strangeProperty "created") 0
  let called : Occurrence := call.below (strangeProperty "called") 0
  let keyed : Occurrence := root.below strangeAttribute 2
  have hcreated : Program.Reaches ⟨[strangeAccesses]⟩ journal created :=
    ⟨new, List.mem_of_getElem? (i := 0) rfl,
      .step (List.mem_of_getElem? (i := 0) rfl) rfl (hnobody _) (.here _)⟩
  have hcalled : Program.Reaches ⟨[strangeAccesses]⟩ journal called :=
    ⟨call, List.mem_of_getElem? (i := 1) rfl,
      .step (List.mem_of_getElem? (i := 0) rfl) rfl (hnobody _) (.here _)⟩
  have hkeyed : Program.Reaches ⟨[strangeAccesses]⟩ journal keyed :=
    ⟨keyed, List.mem_of_getElem? (i := 2) rfl, .here _⟩
  exact ⟨created, called, keyed, _, _, rfl, rfl, rfl,
    (hproperties created _ _ hcreated rfl rfl rfl rfl).1, hproperties called _ _ hcalled rfl rfl rfl rfl,
    hattributes keyed _ _ hkeyed rfl rfl rfl rfl⟩

end ExtensibleCheck
