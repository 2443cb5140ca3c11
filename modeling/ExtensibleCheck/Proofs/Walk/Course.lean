import ExtensibleCheck.Proofs.Walk.Trail

/-! The walk leaves trails. What a visit enters into the journal is a word of the language of its node,
and the beginning of one if the visit is aborted; so what a whole check enters is a course, or the
beginning of one. The proof goes through the walk case by case, by induction on the tree. -/

namespace ExtensibleCheck

namespace Visitor

open Session Run SessionState

variable {ι μ : Type} [DecidableEq ι] {v : Visitor ι μ} {o : Occurrence}

theorem offer_unfolds (question : Question Occurrence CheckedType) (code : Code) (message : String)
    (place : Occurrence) :
    Unfolds (v.offer question code message place) fun _ => Offered question code message place := by
  have hrest (handled : Bool) : Unfolds
      (if handled then pure () else report code message place : Session ι μ Unit) fun _ events =>
        events = if handled then [] else [.reported ⟨code, .error, message, some place.location⟩] := by
    cases handled with
    | true => exact (unfolds_pure ()).mono fun _ _ h => h.2
    | false => exact unfolds_report code message place
  refine ((v.checker.raise_unfolds (.ask question)).bind hrest).mono ?_
  rintro _ _ ⟨handled, asked, _, rfl, hasked, rfl⟩
  cases handled with
  | true => exact (List.append_nil asked).symm ▸ .handled hasked
  | false => exact .unhandled hasked

/-- The check of a variable, given whether it has a symbol. -/
theorem checkVariable_unfolds (hreads : o.readsVariable) :
    Unfolds (v.checkVariable o o.hasVariableSymbol) fun _ => VariableCheck o := by
  refine ((unfolds_hasStored o).bind (M := fun found _ events => VariableCheck o (.probed o found :: events))
    fun found => ?_).mono ?_
  · refine Unfolds.ite (fun hknown => ?_) fun hunknown => ?_
    · refine (unfolds_pure ()).mono ?_
      rintro _ _ ⟨-, rfl⟩
      exact .known hreads hknown
    · have hboth : o.hasVariableSymbol = false ∧ found = false := by simpa using hunknown
      obtain ⟨hsymbol, rfl⟩ := hboth
      exact (offer_unfolds _ _ _ o).mono fun _ _ => .unknown hreads hsymbol
  · rintro _ _ ⟨found, _, _, rfl, rfl, h⟩
    exact h

/-- Whatever the run enters remarks on a node. -/
abbrev Remarking (o : Occurrence) (m : Session ι μ Unit) : Prop := Unfolds m fun _ => Remark o

namespace Remarking

omit [DecidableEq ι] in
theorem nothing (h : o.matter? = none) : Remarking o (pure () : Session ι μ Unit) := by
  refine (unfolds_pure ()).mono ?_
  rintro _ _ ⟨-, rfl⟩
  exact .nothing h

omit [DecidableEq ι] in
theorem spared {matter : Matter} (h : o.matter? = some matter) (harises : ¬ matter.arises o = true) :
    Remarking o (pure () : Session ι μ Unit) := by
  refine (unfolds_pure ()).mono ?_
  rintro _ _ ⟨-, rfl⟩
  exact .inquiry h (.spared (Bool.eq_false_iff.mpr harises))

section

variable {matter : Matter} (h : o.matter? = some matter) (harises : matter.arises o) {code : Code}
  {place : Occurrence} (hcode : ∀ type, (matter.question o type).mistake? = some (code, place))

include h harises hcode

/-- The matter is decided by the type of its subject. -/
theorem judge (hsymbol : matter.hasSymbol = false) :
    Unfolds (do
      let type ← typeOf matter.subject
      unless matter.passes type do
        v.offer (matter.question o type) code (matter.message type) place)
      fun _ events => Remark o (matter.probing o ++ events) := by
  refine ((unfolds_typeOf matter.subject).bind (M := fun type _ events =>
    Remark o (matter.probing o ++ .lookedUp matter.subject type :: events)) fun type => ?_).mono ?_
  · refine Unfolds.ite (fun hpasses => (unfolds_pure ()).mono ?_) fun hpasses => ?_
    · rintro _ _ ⟨-, rfl⟩
      exact .inquiry h (.settled harises hsymbol hpasses)
    · exact (offer_unfolds _ code _ place).mono fun _ _ =>
        .inquiry h ∘ .offered ⟨harises, hsymbol, Bool.eq_false_iff.mpr hpasses⟩ (hcode type)
  · rintro _ _ ⟨type, _, _, rfl, rfl, hrest⟩
    exact hrest

/-- An access is let pass if the compiler knows the name or something is stored. -/
theorem access (haccess : matter.isAccess) {known : Bool → Bool}
    (hknown : ∀ found, known found = (matter.hasSymbol || found)) :
    Remarking o (do
      let found ← hasStored o
      unless known found do
        let type ← typeOf matter.subject
        unless matter.passes type do
          v.offer (matter.question o type) code (matter.message type) place) := by
  refine ((unfolds_hasStored o).bind (M := fun found _ events => Remark o (.probed o found :: events))
    fun found => ?_).mono ?_
  · rw [hknown]
    refine Unfolds.ite (fun hpasses => (unfolds_pure ()).mono ?_) fun hunknown => ?_
    · rintro _ _ ⟨-, rfl⟩
      exact .inquiry h (.vouched harises haccess hpasses)
    · have hboth : matter.hasSymbol = false ∧ found = false := by simpa using hunknown
      obtain ⟨hsymbol, rfl⟩ := hboth
      have hjudge := judge (v := v) h harises hcode hsymbol
      rwa [Matter.probing, if_pos haccess] at hjudge
  · rintro _ _ ⟨found, _, _, rfl, rfl, hrest⟩
    exact hrest

end

theorem checkProperty (h : o.treatment = .propertyAccess) (hcallee : o.isCallee = false) :
    Remarking o (v.checkProperty o) := by
  have hmatter : o.matter? = (o.child? .expression).bind fun object =>
      (o.child? .name).map (.property object) := by
    rw [Occurrence.matter?, h, hcallee]
    rfl
  rw [Visitor.checkProperty]
  cases hobject : o.child? .expression with
  | none => exact nothing (by rw [hmatter, hobject]; rfl)
  | some object =>
      cases hname : o.child? .name with
      | none => exact nothing (by rw [hmatter, hobject, hname]; rfl)
      | some name =>
          rw [hobject, hname] at hmatter
          have hcode : (Question.unresolvedProperty o).mistake? = some (.unresolvedProperty, name) := by
            rw [Question.mistake?, hname, Option.map_some]
          exact access hmatter rfl (fun _ => hcode) rfl fun found => Bool.or_comm found _

theorem checkAttribute (h : o.treatment = .elementAccess) : Remarking o (v.checkAttribute o) := by
  have hmatter : o.matter? = (o.child? .expression).bind fun object =>
      (o.child? .argumentExpression).map (.element object) := by
    rw [Occurrence.matter?, h]
  rw [Visitor.checkAttribute]
  cases hobject : o.child? .expression with
  | none => exact nothing (by rw [hmatter, hobject]; rfl)
  | some object =>
      cases hkey : o.child? .argumentExpression with
      | none => exact nothing (by rw [hmatter, hobject, hkey]; rfl)
      | some key =>
          rw [hobject, hkey] at hmatter
          exact Unfolds.ite (fun harises => access hmatter harises (fun _ => rfl) rfl fun _ => rfl)
            fun harises => spared hmatter harises

section

variable (hpositions : v.incompatible = v.file.incompatibilities) (hfile : o.file = v.file)

include hpositions hfile

theorem checkAssigned {target : CheckedType} {value : Occurrence}
    (h : o.matter? = some (.assigned target value)) : Remarking o (v.checkAssigned o target value) := by
  rw [Visitor.checkAssigned, hpositions, ← hfile]
  exact Unfolds.ite (fun harises => judge h harises (fun _ => rfl) rfl) fun harises => spared h harises

theorem checkDeclaration (h : o.treatment = .declaration) : Remarking o (v.checkDeclaration o) := by
  have hmatter : o.matter? = (o.child? .initializer).map (.assigned (declaredType o)) := by
    rw [Occurrence.matter?, h]
  rw [Visitor.checkDeclaration]
  cases hvalue : o.child? .initializer with
  | some value => exact checkAssigned hpositions hfile (by rw [hmatter, hvalue]; rfl)
  | none => exact nothing (by rw [hmatter, hvalue]; rfl)

theorem checkBinary (h : o.treatment = .binary) : Remarking o (v.checkBinary o) := by
  have hmatter : o.matter? = (assignedValue? o).bind fun value =>
      (o.child? .left).map fun left => .assigned left.node.info.type value := by
    rw [Occurrence.matter?, h]
  rw [Visitor.checkBinary]
  cases hvalue : assignedValue? o with
  | none => exact nothing (by rw [hmatter, hvalue]; rfl)
  | some value =>
      cases hleft : o.child? .left with
      | none => exact nothing (by rw [hmatter, hvalue, hleft]; rfl)
      | some left => exact checkAssigned hpositions hfile (by rw [hmatter, hvalue, hleft]; rfl)

omit hfile in
theorem checkReturned {site value : Occurrence} {function : Option Node} (hfile : site.file = v.file)
    (h : o.matter? = some (.returned site value (declaredReturn function))) :
    Remarking o (v.checkReturned site value function) := by
  rw [Visitor.checkReturned, hpositions, ← hfile]
  exact Unfolds.ite (fun harises => judge h harises (fun _ => rfl) rfl) fun harises => spared h harises

theorem checkReturn (h : o.treatment = .return) : Remarking o (v.checkReturn o) := by
  have hmatter : o.matter? = (o.child? .expression).map fun value =>
      .returned o value (declaredReturn o.enclosingFunction?) := by
    rw [Occurrence.matter?, h]
  rw [Visitor.checkReturn]
  cases hvalue : o.child? .expression with
  | some value => exact checkReturned hpositions hfile (by rw [hmatter, hvalue]; rfl)
  | none => exact nothing (by rw [hmatter, hvalue]; rfl)

theorem checkArrowBody (h : o.treatment = .closure) : Remarking o (v.checkArrowBody o) := by
  have hmatter : o.matter? =
      ((o.child? .body).filter fun body => o.kind = .arrowFunction && body.kind ≠ .block).map
        fun body => .returned body body (declaredReturn (some o.node)) := by
    rw [Occurrence.matter?, h]
  rw [Visitor.checkArrowBody]
  cases hbody : o.child? .body with
  | some body =>
      rw [hbody, Option.filter_some] at hmatter
      refine Unfolds.ite (fun hexpression => ?_) fun hother => nothing ?_
      · have hbodyFile := Occurrence.file_of_mem_children (Occurrence.mem_children_of_child? hbody)
        rw [if_pos hexpression] at hmatter
        exact checkReturned hpositions (hbodyFile.trans hfile) hmatter
      · rw [hmatter, if_neg hother]
        rfl
  | none => exact nothing (by rw [hmatter, hbody]; rfl)

end

end Remarking

theorem select_unfolds (call : Occurrence) (target : Candidate CheckedType) :
    Unfolds (v.checker.select call target) fun _ => Selecting call target := by
  have hselect : Unfolds (do
      modify (·.selecting call target)
      record (.selected call target) : Session ι μ Unit) fun _ events =>
        events = [.selected call target] := by
    refine .ofEnters (fun s _ t h => ?_) fun _ => rfl
    cases h
    exact ⟨_, Array.toList_push, rfl⟩
  have hall := hselect.bind fun _ => v.checker.raise_unfolds (.notify (.methodSelection call target))
  refine Unfolds.mono (m := v.checker.select call target) hall ?_
  rintro _ _ ⟨_, _, told, rfl, rfl, htold⟩
  exact .mk htold

theorem selectResolved_unfolds (call : Occurrence) : Unfolds (v.selectResolved call) fun _ events =>
    events = [] ∨ ∃ target, Selecting call target events := by
  have hnothing : Unfolds (pure () : Session ι μ Unit) fun _ events =>
      events = [] ∨ ∃ target, Selecting call target events :=
    (unfolds_pure ()).mono fun _ _ h => Or.inl h.2
  rw [selectResolved]
  split
  · split
    · refine Unfolds.ite (fun _ => hnothing) fun _ => ?_
      exact (select_unfolds call _).mono fun _ _ h => Or.inr ⟨_, h⟩
    · exact hnothing
  · exact hnothing

theorem choose_unfolds (call name : Occurrence) (receiver : CheckedType) (types : List CheckedType)
    (candidates : List (Candidate CheckedType)) :
    Unfolds (v.choose call name receiver types candidates) fun _ =>
      Choosing call name receiver types candidates := by
  match candidates with
  | [] =>
      refine (unfolds_report _ _ name).mono ?_
      rintro _ _ rfl
      exact .none
  | [target] => exact (select_unfolds call target).mono fun _ _ => .one
  | _ :: _ :: _ =>
      refine (unfolds_report _ _ name).mono ?_
      rintro _ _ rfl
      exact .many (by simp)

omit [DecidableEq ι] in
/-- The types of several nodes are looked up one after the other. -/
theorem mapM_typeOf_unfolds (nodes : List Occurrence) :
    Unfolds (nodes.mapM typeOf : Session ι μ (List CheckedType)) fun types events =>
      types.length = nodes.length ∧ events = List.zipWith .lookedUp nodes types := by
  induction nodes with
  | nil =>
      refine (unfolds_pure []).mono ?_
      rintro _ _ ⟨rfl, rfl⟩
      exact ⟨rfl, rfl⟩
  | cons node nodes ih =>
      rw [List.mapM_cons]
      refine ((unfolds_typeOf node).bind fun type => ih.bind fun types =>
        unfolds_pure (type :: types)).mono ?_
      rintro _ _ ⟨type, _, _, rfl, rfl, types, _, _, rfl, ⟨hlength, rfl⟩, rfl, rfl⟩
      exact ⟨congrArg (· + 1) hlength, by simp⟩

theorem supply_unfolds (call name : Occurrence) (receiver : CheckedType) (arguments : List Occurrence)
    (types : List CheckedType) :
    Unfolds (v.supply call name receiver arguments types) fun _ events =>
      ∃ found chosen contributing narrowing choosing,
        events = contributing ++ narrowing ++ choosing ∧
        Exchange (.contribute ⟨receiver, name.text, arguments, types, call⟩) found contributing ∧
        Narrowing call found chosen narrowing ∧
        Choosing call name receiver types chosen choosing := by
  have hchoice (found : List (Candidate CheckedType)) : Unfolds
      (if 1 < found.length then
        v.checker.raise (.narrow found call) >>= v.choose call name receiver types
      else v.choose call name receiver types found) fun _ events => ∃ chosen narrowing choosing,
        events = narrowing ++ choosing ∧ Narrowing call found chosen narrowing ∧
          Choosing call name receiver types chosen choosing := by
    refine Unfolds.ite (fun hseveral => ?_) fun hfew => ?_
    · refine ((v.checker.raise_unfolds (.narrow found call)).bind fun chosen =>
        choose_unfolds call name receiver types chosen).mono ?_
      rintro _ _ ⟨chosen, narrowing, choosing, rfl, hnarrowing, hchoosing⟩
      exact ⟨chosen, narrowing, choosing, rfl, .several hseveral hnarrowing, hchoosing⟩
    · refine (choose_unfolds call name receiver types found).mono fun _ choosing hchoosing => ?_
      exact ⟨found, [], choosing, rfl, .few (Nat.le_of_not_lt hfew), hchoosing⟩
  refine ((v.checker.raise_unfolds _).bind hchoice).mono ?_
  rintro _ _ ⟨found, contributing, _, rfl, hcontributing, chosen, narrowing, choosing, rfl,
    hnarrowing, hchoosing⟩
  exact ⟨found, chosen, contributing, narrowing, choosing, (List.append_assoc ..).symm,
    hcontributing, hnarrowing, hchoosing⟩

theorem resolveMember_unfolds {call callee object name : Occurrence}
    (hmember : call.member? = some (object, name)) (hobject : callee.child? .expression = some object)
    (hname : callee.child? .name = some name) :
    Unfolds (v.resolveMember call callee) fun _ => Resolution call := by
  have hknown {events : List (Event ι)} (hsymbol : name.node.info.hasSymbol = true)
      (h : events = [] ∨ ∃ target, Selecting call target events) : Resolution call events := by
    refine .compiled (fun object' name' hmember' => ?_) h
    rw [hmember] at hmember'
    cases hmember'
    exact hsymbol
  rw [resolveMember, hobject, hname]
  refine Unfolds.ite (fun hsymbol => (selectResolved_unfolds call).mono fun _ _ => hknown hsymbol)
    fun hsymbol => ?_
  have hunknown : name.node.info.hasSymbol = false := Bool.eq_false_iff.mpr hsymbol
  refine ((unfolds_typeOf object).bind (M := fun receiver _ events =>
    Resolution call (.lookedUp object receiver :: events)) fun receiver => ?_).mono ?_
  · refine Unfolds.ite (fun hunchecked => (unfolds_pure ()).mono ?_) fun hchecked => ?_
    · rintro _ _ ⟨-, rfl⟩
      exact .unchecked hmember hunknown hunchecked
    · refine ((mapM_typeOf_unfolds _).bind fun types =>
        supply_unfolds call name receiver _ types).mono ?_
      rintro _ _ ⟨types, _, _, rfl, ⟨hlength, rfl⟩, found, chosen, contributing, narrowing, choosing,
        rfl, hcontributing, hnarrowing, hchoosing⟩
      rw [← List.append_assoc, ← List.append_assoc]
      exact .supplied hmember hunknown (Bool.eq_false_iff.mpr hchecked) hlength hcontributing
        hnarrowing hchoosing
  · rintro _ _ ⟨receiver, _, _, rfl, rfl, h⟩
    exact h

theorem resolveCall_unfolds (call : Occurrence) :
    Unfolds (v.resolveCall call) fun _ => Resolution call := by
  have hcompiled {m : Session ι μ Unit} (hmember : call.member? = none)
      (h : Unfolds m fun _ events => events = [] ∨ ∃ target, Selecting call target events) :
      Unfolds m fun _ => Resolution call := by
    refine h.mono fun _ _ => .compiled fun _ _ hsome => ?_
    rw [hmember] at hsome
    cases hsome
  rw [resolveCall]
  cases hcallee : call.child? .expression with
  | none =>
      refine hcompiled ?_ (selectResolved_unfolds call)
      rw [Occurrence.member?, hcallee]
      rfl
  | some callee =>
      have hmember : call.member? = if call.kind = .callExpression ∧ callee.kind = .propertyAccess then
          (do return (← callee.child? .expression, ← callee.child? .name)) else none := by
        rw [Occurrence.member?, hcallee]
        rfl
      refine Unfolds.ite (fun hkinds => ?_) fun hkinds => ?_
      · rw [if_pos (by simpa using hkinds)] at hmember
        cases hobject : callee.child? .expression with
        | none =>
            rw [hobject] at hmember
            rw [resolveMember, hobject]
            exact hcompiled hmember ((unfolds_pure ()).mono fun _ _ h => Or.inl h.2)
        | some object =>
            cases hname : callee.child? .name with
            | none =>
                rw [hobject, hname] at hmember
                rw [resolveMember, hobject, hname]
                exact hcompiled hmember ((unfolds_pure ()).mono fun _ _ h => Or.inl h.2)
            | some name =>
                rw [hobject, hname] at hmember
                exact resolveMember_unfolds hmember hobject hname
      · rw [if_neg (by simpa using hkinds)] at hmember
        exact hcompiled hmember (selectResolved_unfolds call)

theorem announced_unfolds {before : Question Occurrence CheckedType}
    {after : Notice Occurrence CheckedType} {body : Session ι μ Unit} {L : List (Event ι) → Prop}
    (hbody : Unfolds body fun _ => L) :
    Unfolds (v.announced before after body) fun _ events => ∃ taken asked inner told,
      events = asked ++ inner ++ told ∧ Exchange (.ask before) taken asked ∧
        (if taken then inner = [] else L inner) ∧ Exchange (.notify after) () told := by
  have hlast := v.checker.raise_unfolds (.notify after)
  have hrest (taken : Bool) : Unfolds
      (if taken then v.checker.raise (.notify after)
        else body >>= fun _ => v.checker.raise (.notify after)) fun _ events => ∃ inner told,
      events = inner ++ told ∧ (if taken then inner = [] else L inner) ∧
        Exchange (.notify after) () told := by
    cases taken with
    | true => exact hlast.mono fun _ told htold => ⟨[], told, rfl, rfl, htold⟩
    | false =>
        refine (hbody.bind fun _ => hlast).mono ?_
        rintro _ _ ⟨_, inner, told, rfl, hinner, htold⟩
        exact ⟨inner, told, rfl, hinner, htold⟩
  refine Unfolds.mono (m := v.announced before after body)
    ((v.checker.raise_unfolds (.ask before)).bind hrest) ?_
  rintro _ _ ⟨taken, asked, _, rfl, hasked, inner, told, rfl, hinner, htold⟩
  exact ⟨taken, asked, inner, told, (List.append_assoc ..).symm, hasked, hinner, htold⟩

/-- The trail of a node that is announced. -/
theorem announced_trail {before : Question Occurrence CheckedType}
    {after : Notice Occurrence CheckedType} {body : Session ι μ Unit}
    (hannounced : o.announcement? = some (before, after)) (hname : o.isShorthandName = false)
    (hbody : Unfolds body fun _ events => ∃ inner own, events = inner ++ own ∧
      Trail o.entered inner ∧ if o.isCall then Resolution o own else own = []) :
    Unfolds (v.announced before after body) fun _ => Trail [o] := by
  have hvariable : o.isVariable = false := by
    refine Occurrence.isVariable_eq_false hname fun ht => ?_
    rw [Occurrence.announcement?, ht] at hannounced
    cases hannounced
  refine (announced_unfolds hbody).mono ?_
  rintro _ _ ⟨taken, asked, inner, told, rfl, hasked, hinner, htold⟩
  cases taken with
  | true =>
      subst hinner
      exact .node hvariable (.announced hannounced hasked) .nil (.passed hannounced htold)
  | false =>
      obtain ⟨inner, own, rfl, hinner, hown⟩ := hinner
      rw [← List.append_assoc, List.append_assoc _ own]
      exact .node hvariable (.announced hannounced hasked) hinner (.announced hannounced hown htold)

theorem enclosed_unfolds {closure : Occurrence} {body : Session ι μ Unit} {L : List (Event ι) → Prop}
    (hbody : Unfolds body fun _ => L) :
    Unfolds (v.enclosed closure body) fun _ events => ∃ during extensions inner,
      events = during ++ [.brought closure extensions] ++ inner ∧ (∀ e ∈ during, e.isDeed) ∧
        L inner := by
  refine ((v.checker.localExtensionsFor_unfolds closure).bind (M := fun _ _ => L)
    fun extensions => Unfolds.ite (fun _ => hbody) fun _ => hbody.scoped extensions).mono ?_
  rintro _ _ ⟨extensions, _, inner, rfl, ⟨during, hduring, rfl⟩, hinner⟩
  exact ⟨during, extensions, inner, rfl, hduring, hinner⟩

omit [DecidableEq ι] in
/-- The trail of a node that is neither announced nor a closure. -/
theorem plain_unfolds {m m' : Session ι μ Unit}
    (h : o.treatment ∉ [.identifier, .classLike, .methodLike, .call, .closure])
    (hname : o.isShorthandName = false) (hinner : Unfolds m fun _ => Trail o.entered)
    (hown : Remarking o m') : Unfolds (m >>= fun _ => m') fun _ => Trail [o] := by
  simp only [List.mem_cons, List.not_mem_nil, or_false, not_or] at h
  obtain ⟨hidentifier, hclass, hmethod, hcall, hclosure⟩ := h
  have hannounced : o.announcement? = none := by
    cases ht : o.treatment <;> simp_all [Occurrence.announcement?]
  have hopen := Bool.eq_false_iff.mpr fun h => hclosure (Occurrence.isClosure_iff.mp h)
  refine (hinner.bind fun _ => hown).mono ?_
  rintro _ _ ⟨_, inner, own, rfl, hinner, hown⟩
  exact .node (Occurrence.isVariable_eq_false hname hidentifier) (.plain hannounced hopen) hinner
    (.plain hannounced hown)

omit [DecidableEq ι] in
/-- The same if nothing is remarked on it. -/
theorem entered_unfolds {m : Session ι μ Unit}
    (h : o.treatment ∉ [.identifier, .classLike, .methodLike, .call, .closure])
    (hname : o.isShorthandName = false) (hmatter : o.matter? = none)
    (hinner : Unfolds m fun _ => Trail o.entered) : Unfolds m fun _ => Trail [o] := by
  have hall := plain_unfolds h hname hinner (Remarking.nothing hmatter)
  rwa [show (m >>= fun _ => pure ()) = m from bind_pure m] at hall

omit [DecidableEq ι] in
/-- Nothing comes of a node of which all children are left out. -/
theorem skipped_unfolds (hvariable : o.isVariable = false) (hannounced : o.announcement? = none)
    (hclosure : o.kind.isClosure = false) (hmatter : o.matter? = none)
    (hentered : o.entered = []) : Unfolds (pure () : Session ι μ Unit) fun _ => Trail [o] := by
  refine (unfolds_pure ()).mono ?_
  rintro _ _ ⟨-, rfl⟩
  have hinner : Trail o.entered ([] : List (Event ι)) := hentered ▸ .nil
  exact .node hvariable (.plain hannounced hclosure) hinner (.plain hannounced (.nothing hmatter))

theorem checkShorthand_unfolds (hhead : o.lineage.head? = some o) (h : o.treatment = .shorthand) :
    Unfolds (v.checkShorthand o) fun _ => Trail (o.child? .name).toList := by
  have hkind := Occurrence.kind_of_treatment h (by decide)
  have hkind : o.kind = .shorthandProperty := by
    cases hk : o.kind <;> simp_all [Kind.treatment]
  rw [checkShorthand]
  cases hchild : o.child? .name with
  | none =>
      refine (unfolds_pure ()).mono ?_
      rintro _ _ ⟨-, rfl⟩
      exact .nil
  | some name =>
      have hname := Occurrence.isShorthandName_of_child? hhead hkind hchild
      have hsymbol : name.hasVariableSymbol = o.node.info.hasValueSymbol := by
        rw [Occurrence.hasVariableSymbol, if_pos hname,
          Occurrence.ancestors_of_mem_children (Occurrence.mem_children_of_child? hchild), hhead]
        rfl
      have hreads : name.readsVariable = true := by rw [Occurrence.readsVariable, hname, Bool.true_or]
      have hcheck := checkVariable_unfolds (v := v) hreads
      rw [hsymbol] at hcheck
      refine hcheck.mono fun _ _ => .variable ?_
      rw [Occurrence.isVariable, hname, Bool.true_or]

theorem checkIdentifier_unfolds (h : o.treatment = .identifier) (hname : o.isShorthandName = false) :
    Unfolds (v.checkIdentifier o) fun _ => Trail [o] := by
  have hkind := Occurrence.kind_of_treatment h (by decide)
  have hvariable : o.isVariable = true := by
    cases hk : o.kind <;> simp_all [Kind.treatment, Occurrence.isVariable]
  have hreads : o.readsVariable = o.isValueReference := by
    rw [Occurrence.readsVariable, hname, Bool.false_or]
  have hsymbol : o.hasVariableSymbol = o.node.info.hasSymbol := by
    rw [Occurrence.hasVariableSymbol, hname, if_neg Bool.false_ne_true]
  rw [checkIdentifier, ← hreads, ← hsymbol]
  refine Unfolds.ite (fun hvalue => ?_) fun hvalue => (unfolds_pure ()).mono ?_
  · exact (checkVariable_unfolds hvalue).mono fun _ _ => .variable hvariable
  · rintro _ _ ⟨-, rfl⟩
    exact .variable hvariable (.unread (Bool.eq_false_iff.mpr hvalue))

/-- Going through the children of a node leaves their trails, whichever roles are chosen in the way in
which the walk chooses them. -/
def LeavesTrails (v : Visitor ι μ) (o : Occurrence) (children : List Node) : Prop :=
  ∀ (chosen : Role → Bool) (called : Bool), (∀ role, chosen role → called = calls o role) →
    (o.lineage.head?.any (·.kind = .shorthandProperty) → chosen .name = false) →
      Unfolds (v.visitAmong o chosen called 0 children) fun _ => Trail (chosenFrom o chosen)

namespace LeavesTrails

variable {children : List Node} (h : v.LeavesTrails o children) (hhead : o.lineage.head? = some o)

include h

section

include hhead

/-- Nobody but a call calls its children, and nobody but a shorthand property reads its name. -/
theorem among (chosen : Role → Bool) (hcall : o.treatment ≠ .call)
    (hchosen : o.treatment ≠ .shorthand ∨ chosen .name = false) :
    Unfolds (v.visitAmong o chosen false 0 children) fun _ => Trail (chosenFrom o chosen) := by
  refine h chosen false (fun role _ => (calls_eq_false hcall role).symm) fun hkind => ?_
  have hkind : o.kind = .shorthandProperty := by simpa [hhead] using hkind
  refine hchosen.resolve_left fun hother => hother ?_
  rw [Occurrence.treatment_of_kind (by simp [hkind]), hkind]
  rfl

theorem all (ht : o.treatment ∉ [.call, .shorthand]) :
    Unfolds (v.visitAmong o (fun _ => true) false 0 children) fun _ => Trail o.children := by
  simp only [List.mem_cons, List.not_mem_nil, or_false, not_or] at ht
  have hsame : chosenFrom o (fun _ => true) = o.children := List.filter_true _
  exact hsame ▸ h.among hhead (fun _ => true) ht.1 (Or.inl ht.2)

/-- A class or a method has nothing to be resolved once its children are through. -/
theorem body (ht : o.treatment ∉ [.call, .shorthand]) (hentered : o.entered = o.children) :
    Unfolds (v.visitAmong o (fun _ => true) false 0 children) fun _ events => ∃ inner own,
      events = inner ++ own ∧ Trail o.entered inner ∧
        if o.isCall then Resolution o own else own = [] := by
  refine (h.all hhead ht).mono fun _ events htrail => ?_
  have hcall : ¬ o.isCall = true := fun hcall => ht (by simp [Occurrence.isCall_iff.mp hcall])
  exact ⟨events, [], (List.append_nil events).symm, hentered ▸ htrail, if_neg hcall ▸ rfl⟩

/-- A call is resolved once the callee and the arguments are through. -/
theorem call (ht : o.treatment = .call) :
    Unfolds (do
      v.visitAmong o (· = .expression) (o.kind = .callExpression) 0 children
      v.visitAmong o (· = .argument) false 0 children
      v.resolveCall o) fun _ events => ∃ inner own, events = inner ++ own ∧ Trail o.entered inner ∧
        if o.isCall then Resolution o own else own = [] := by
  have hcallee : Unfolds (v.visitAmong o (· = .expression) (o.kind = .callExpression) 0 children)
      fun _ => Trail (o.withRole .expression) :=
    h _ _ (fun _ hrole => eq_calls_of_callee hhead hrole) fun _ => rfl
  have harguments : Unfolds (v.visitAmong o (· = .argument) false 0 children)
      fun _ => Trail (o.withRole .argument) :=
    h _ _ (fun _ hrole => eq_calls_of_argument hrole) fun _ => rfl
  refine (hcallee.bind fun _ => harguments.bind fun _ => resolveCall_unfolds o).mono ?_
  rintro _ _ ⟨_, first, _, rfl, hfirst, _, second, own, rfl, hsecond, hown⟩
  refine ⟨first ++ second, own, (List.append_assoc ..).symm, ?_, ?_⟩
  · rw [Occurrence.entered, ht]
    exact .append hfirst hsecond
  · rwa [if_pos (Occurrence.isCall_iff.mpr ht)]

/-- The object of an access by key comes before the key. -/
theorem access (ht : o.treatment = .elementAccess) :
    Unfolds (do
      v.visitAmong o (· = .expression) false 0 children
      v.visitAmong o (· = .argumentExpression) false 0 children) fun _ => Trail o.entered := by
  have hobject := h.among hhead (· = .expression) (by simp [ht]) (Or.inr rfl)
  have hkey := h.among hhead (· = .argumentExpression) (by simp [ht]) (Or.inr rfl)
  refine (hobject.bind fun _ => hkey).mono ?_
  rintro _ _ ⟨_, first, second, rfl, hfirst, hsecond⟩
  rw [Occurrence.entered, ht]
  exact .append hfirst hsecond

/-- The name of a shorthand property comes before its default. -/
theorem shorthand (ht : o.treatment = .shorthand) :
    Unfolds (do
      v.checkShorthand o
      v.visitAmong o (· = .shorthandDefault) false 0 children) fun _ => Trail o.entered := by
  have hdefault := h.among hhead (· = .shorthandDefault) (by simp [ht]) (Or.inr rfl)
  refine ((checkShorthand_unfolds hhead ht).bind fun _ => hdefault).mono ?_
  rintro _ _ ⟨_, first, second, rfl, hfirst, hsecond⟩
  rw [Occurrence.entered, ht]
  exact .append hfirst hsecond

/-- The trail of a closure: what it returns is looked at before its extensions are gone. -/
theorem closure (hpositions : v.incompatible = v.file.incompatibilities) (hfile : o.file = v.file)
    (ht : o.treatment = .closure) (hname : o.isShorthandName = false) :
    Unfolds (v.enclosed o do
      v.visitAmong o (fun _ => true) false 0 children
      v.checkArrowBody o) fun _ => Trail [o] := by
  have hclosure := Occurrence.isClosure_iff.mpr ht
  have hannounced : o.announcement? = none := by rw [Occurrence.announcement?, ht]
  have hinner := h.all hhead (by simp [ht])
  refine (enclosed_unfolds (hinner.bind fun _ => Remarking.checkArrowBody hpositions
    hfile ht)).mono ?_
  rintro _ _ ⟨during, extensions, _, rfl, hduring, _, inner, own, rfl, hinner, hown⟩
  have hentered : Trail o.entered inner := by
    rw [Occurrence.entered, ht]
    exact hinner
  rw [← List.append_assoc]
  exact .node (Occurrence.isVariable_eq_false hname (by simp [ht])) (.closure hclosure hduring)
    hentered (.plain hannounced hown)

end

/-- The trail of a visit, case by case as the nodes are treated. -/
theorem visit (hpositions : v.incompatible = v.file.incompatibilities) (a : Ancestor)
    (above : List Ancestor) (isCallee : Bool) (info : NodeInfo)
    (ho : o = ⟨v.file, .mk info children, a :: above⟩) (hcallee : isCallee = o.isCallee)
    (hname : o.isShorthandName = false) :
    Unfolds (v.visit (a :: above) isCallee (.mk info children)) fun _ => Trail [o] := by
  have hhead : o.lineage.head? = some o := by rw [ho]; rfl
  have hfile : o.file = v.file := by rw [ho]
  rw [Visitor.visit, ← ho]
  have hmatter (h : o.treatment ∉ [.propertyAccess, .elementAccess, .declaration, .binary, .return,
      .closure]) : o.matter? = none := by
    cases ht : o.treatment <;> simp_all [Occurrence.matter?]
  cases ht : o.treatment with
  | skipped =>
      refine entered_unfolds (by simp [ht]) hname (hmatter (by simp [ht])) ((unfolds_pure ()).mono ?_)
      rintro _ _ ⟨-, rfl⟩
      rw [Occurrence.entered, ht]
      exact .nil
  | classBase =>
      refine entered_unfolds (by simp [ht]) hname (hmatter (by simp [ht])) ?_
      rw [Occurrence.entered, ht]
      exact h.among hhead (· = .expression) (by simp [ht]) (Or.inr rfl)
  | classLike =>
      have hannounced : o.announcement? = some (.beforeVisitClass o, .afterVisitClass o) := by
        rw [Occurrence.announcement?, ht]
      exact announced_trail hannounced hname
        (h.body hhead (by simp [ht]) (by rw [Occurrence.entered, ht]))
  | methodLike =>
      dsimp only
      split
      · rename_i hdefined
        have hannounced : o.announcement? =
            some (.beforeVisitMethod o, .afterVisitMethod o) := by
          simp [Occurrence.announcement?, ht, hdefined]
        refine announced_trail hannounced hname (h.body hhead (by simp [ht]) ?_)
        simp [Occurrence.entered, ht, hdefined]
      · rename_i hdeclared
        refine skipped_unfolds (Occurrence.isVariable_eq_false hname (by simp [ht])) ?_ ?_
          (hmatter (by simp [ht])) ?_
        · simp [Occurrence.announcement?, ht, hdeclared]
        · exact Bool.eq_false_iff.mpr fun h => by simp [Occurrence.isClosure_iff.mp h] at ht
        · simp [Occurrence.entered, ht, hdeclared]
  | closure => exact h.closure hhead hpositions hfile ht hname
  | call =>
      have hannounced : o.announcement? = some (.beforeMethodCall o, .afterMethodCall o) := by
        rw [Occurrence.announcement?, ht]
      exact announced_trail hannounced hname (h.call hhead ht)
  | propertyAccess =>
      refine plain_unfolds (by simp [ht]) hname ?_ (Unfolds.ite
        (fun h => Remarking.nothing ?_) fun h => ?_)
      · rw [Occurrence.entered, ht]
        exact h.among hhead (· = .expression) (by simp [ht]) (Or.inr rfl)
      · rw [Occurrence.matter?, ht, ← hcallee, if_pos h]
      · exact Remarking.checkProperty ht (by rw [← hcallee]; simpa using h)
  | elementAccess =>
      have hvisit := plain_unfolds (by simp [ht]) hname (h.access hhead ht)
        (Remarking.checkAttribute (v := v) ht)
      rwa [bind_assoc] at hvisit
  | shorthand =>
      exact entered_unfolds (by simp [ht]) hname (hmatter (by simp [ht])) (h.shorthand hhead ht)
  | identifier => exact checkIdentifier_unfolds ht hname
  | declaration =>
      refine plain_unfolds (by simp [ht]) hname ?_ (Remarking.checkDeclaration hpositions hfile ht)
      rw [Occurrence.entered, ht]
      exact h.all hhead (by simp [ht])
  | binary =>
      refine plain_unfolds (by simp [ht]) hname ?_ (Remarking.checkBinary hpositions hfile ht)
      rw [Occurrence.entered, ht]
      exact h.all hhead (by simp [ht])
  | «return» =>
      refine plain_unfolds (by simp [ht]) hname ?_ (Remarking.checkReturn hpositions hfile ht)
      rw [Occurrence.entered, ht]
      exact h.all hhead (by simp [ht])
  | plain =>
      refine entered_unfolds (by simp [ht]) hname (hmatter (by simp [ht])) ?_
      rw [Occurrence.entered, ht]
      exact h.all hhead (by simp [ht])

end LeavesTrails

variable (v)

mutual

/-- Every visit leaves a trail of its node. -/
theorem visit_unfolds (hpositions : v.incompatible = v.file.incompatibilities) (a : Ancestor)
    (above : List Ancestor) (isCallee : Bool) :
    ∀ n : Node, isCallee = Occurrence.isCallee ⟨v.file, n, a :: above⟩ →
      Occurrence.isShorthandName ⟨v.file, n, a :: above⟩ = false →
        Unfolds (v.visit (a :: above) isCallee n) fun _ => Trail [⟨v.file, n, a :: above⟩]
  | .mk info children, hcallee, hname =>
    LeavesTrails.visit (fun chosen called hcalled hchosen =>
        visitAmong_unfolds hpositions ⟨v.file, .mk info children, a :: above⟩ rfl chosen called hcalled
          hchosen 0 children rfl) hpositions a above isCallee info rfl hcallee hname

theorem visitAmong_unfolds (hpositions : v.incompatible = v.file.incompatibilities) (o : Occurrence)
    (hfile : o.file = v.file) (chosen : Role → Bool) (called : Bool)
    (hcalled : ∀ role, chosen role → called = calls o role)
    (hchosen : o.lineage.head?.any (·.kind = .shorthandProperty) → chosen .name = false) :
    ∀ (branch : Nat) (rest : List Node), rest = o.node.children.drop branch →
      Unfolds (v.visitAmong o chosen called branch rest) fun _ =>
        Trail (chosenAmong o chosen branch rest)
  | _, [], _ => by
    refine (unfolds_pure ()).mono ?_
    rintro _ _ ⟨-, rfl⟩
    exact .nil
  | branch, child :: rest, hrest => by
    have hnext := visitAmong_unfolds hpositions o hfile chosen called hcalled hchosen (branch + 1) rest
      (by rw [← List.tail_drop, ← hrest, List.tail_cons])
    rw [visitAmong, chosenAmong_cons]
    by_cases hrole : chosen child.role = true
    · rw [if_pos hrole, if_pos hrole]
      have hmem : o.below child branch ∈ o.children := by
        refine Occurrence.mem_children_iff.mpr ⟨child, branch, ?_, rfl⟩
        rw [← List.head?_drop, ← hrest, List.head?_cons]
      have hname := Occurrence.isShorthandName_of_mem_children hmem fun hkind hname => by
        rw [show child.role = .name from hname, hchosen hkind] at hrole
        cases hrole
      have hvisit := visit_unfolds hpositions ⟨o.node, branch⟩ o.above called child
      rw [← hfile] at hvisit
      refine ((hvisit (hcalled _ hrole) hname).bind fun _ => hnext).mono ?_
      rintro _ _ ⟨_, first, further, rfl, hfirst, hfurther⟩
      exact .append hfirst hfurther
    · rw [if_neg hrole, if_neg hrole]
      exact hnext

end

end Visitor

/-- The outermost nodes of the files, where the walks begin. -/
def Program.tops (p : Program) : List Occurrence := p.files.flatMap (·.rootOccurrence.children)

/-- What a whole check enters into the journal. -/
inductive Course {ι : Type} (p : Program) : List (Event ι) → Prop
  | mk {created opened tour closed} : (∀ e ∈ created, e.isDeed) →
      Exchange (.notify .setup) () opened → Trail p.tops tour →
      Exchange (.notify .finish) () closed → Course p (created ++ opened ++ tour ++ closed)

namespace Checker

open Run Session SessionState

variable {ι μ : Type} [DecidableEq ι] (c : Checker ι μ)

theorem visitFile_unfolds (file : SourceFile) :
    Unfolds (c.visitFile file) fun _ => Trail file.rootOccurrence.children := by
  have hwalk := (c.visitor file).visitAmong_unfolds rfl file.rootOccurrence rfl (fun _ => true) false
    (fun role _ => by simp [Visitor.calls]) (fun hnone => nomatch hnone) 0 file.root.children rfl
  rw [show Visitor.chosenAmong file.rootOccurrence (fun _ => true) 0 file.root.children =
    file.rootOccurrence.children from List.filter_true _] at hwalk
  refine Unfolds.ite (fun _ => ?_) fun _ => hwalk
  have hline : IsDeed (print ("Checking " ++ file.name) : Session ι μ Unit) := deed_record rfl
  refine ((Unfolds.ofWrites hline ()).bind fun _ => hwalk).mono ?_
  rintro _ _ ⟨_, line, rest, rfl, hline, hrest⟩
  exact .append (.aside hline) hrest

theorem visitFiles_unfolds (files : List SourceFile) : Unfolds (files.forM c.visitFile) fun _ =>
    Trail (files.flatMap (·.rootOccurrence.children)) := by
  induction files with
  | nil =>
      refine (unfolds_pure PUnit.unit).mono ?_
      rintro _ _ ⟨-, rfl⟩
      exact .nil
  | cons file files ih =>
      refine ((c.visitFile_unfolds file).bind fun _ => ih).mono ?_
      rintro _ _ ⟨_, first, rest, rfl, hfirst, hrest⟩
      exact .append hfirst hrest

/-- However a check ends, what it entered into the journal is the beginning of a course. -/
theorem check_unfolds (p : Program) : Unfolds (c.check p) fun _ => Course p := by
  have hverdict : Unfolds (do return (← get).verdict : Session ι μ Verdict) fun _ events => events = [] :=
    Unfolds.get_bind fun s => (unfolds_pure s.verdict).mono fun _ _ h => h.2
  refine ((Unfolds.ofWrites c.deed_start ()).bind fun _ =>
    (c.raise_unfolds (.notify .setup)).bind fun _ => (c.visitFiles_unfolds p.files).bind fun _ =>
      (c.raise_unfolds (.notify .finish)).bind fun _ => hverdict).mono ?_
  rintro _ _ ⟨_, created, _, rfl, hcreated, _, opened, _, rfl, hopened, _, tour, _, rfl, htour, _,
    closed, _, rfl, hclosed, rfl⟩
  rw [List.append_nil, ← List.append_assoc, ← List.append_assoc]
  exact .mk hcreated hopened htour hclosed

/-- What a check that is not aborted entered is a whole course. -/
theorem check_course (p : Program) (memory : μ) :
    ∃ rest, Course p (((c.check p).after { memory }).journal.toList ++ rest) ∧
      ((c.check p).finishes { memory } → rest = []) := by
  obtain ⟨events, rest, _, hgrown, hcourse, hwhole⟩ := (c.check_unfolds p).exists_beginning { memory }
  obtain rfl : ((c.check p).after { memory }).journal.toList = events := hgrown
  exact ⟨rest, hcourse, hwhole⟩

end Checker

end ExtensibleCheck
