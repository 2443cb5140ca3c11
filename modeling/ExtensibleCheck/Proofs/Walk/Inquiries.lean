import ExtensibleCheck.Proofs.Walk.Resolution

/-! Where the journal shows that the walk went into a matter. What is wrong at a node is put to the
extensions right after the type that decides it was looked up, and reported right after nobody took care
of it. So the question, the report and the node are tied together by the entries around them. -/

namespace ExtensibleCheck

open Occurrence

section

variable {ι : Type} {events journal past rest first last : List (Event ι)} {n : Occurrence}
  {matter : Matter} {question : Question Occurrence CheckedType} {registry : Registry ι (List ι)}

/-- A mistake other than a missing variable is put to the extensions only where the walk goes into it. -/
theorem Piece.inquiry_of_raised (h : Piece journal n events)
    (hmem : .raised (.ask question) registry ∈ events) (hplain : (HookCall.ask question).announced? = none)
    (hother : question.hook ≠ .unresolvedVariable) :
    n.isVariable = false ∧ ∃ matter, n.matter? = some matter ∧ Inquiry n matter events := by
  have huse : HookCall.ask question ∈ raisedIn events := mem_raisedIn.mpr ⟨registry, hmem⟩
  cases h with
  | «variable» _ hcheck =>
      cases hcheck.eq_of_raised huse
      exact absurd rfl hother
  | opening hopening =>
      obtain ⟨before, after, hannounced, hbefore⟩ := hopening.eq_of_raised huse
      rw [hbefore, (announcement?_spec hannounced).2.2.1] at hplain
      cases hplain
  | closing hvariable _ hclosing =>
      cases hclosing with
      | plain _ hremark =>
          cases hremark with
          | nothing => cases huse
          | inquiry hmatter hinquiry => exact ⟨hvariable, _, hmatter, hinquiry⟩
      | announced hannounced hown htold =>
          rw [raisedIn_append, htold.raised] at huse
          rcases List.mem_append.mp huse with huse | huse
          · split at hown
            · cases hown.raised.resolves huse
            · rw [hown] at huse
              cases huse
          · cases List.mem_singleton.mp huse
      | passed _ htold =>
          rw [htold.raised] at huse
          cases List.mem_singleton.mp huse

/-- What comes before and after the question in an inquiry. -/
theorem Inquiry.of_raised (h : Inquiry n matter (first ++ .raised (.ask question) registry :: last)) :
    ∃ type code place, matter.Stands n type ∧ question = matter.question n type ∧
      question.mistake? = some (code, place) ∧
      first = matter.probing n ++ [.lookedUp matter.subject type] ∧
      Offered question code (matter.message type) place (.raised (.ask question) registry :: last) := by
  have huse : HookCall.ask question ∈
      raisedIn (first ++ .raised (.ask question) registry :: last) :=
    mem_raisedIn.mpr ⟨registry, List.mem_append_right first List.mem_cons_self⟩
  generalize hevents : first ++ .raised (.ask question) registry :: last = events at h huse
  cases h with
  | spared | vouched => cases huse
  | settled =>
      rw [raisedIn_append, raisedIn_probing] at huse
      cases huse
  | @offered type code place rest hstands hcode hoffered =>
      obtain ⟨registry', further, rfl, hfurther⟩ := hoffered.begins
      have hahead : raisedIn (matter.probing (ι := ι) n ++ [.lookedUp matter.subject type]) = [] := by
        rw [raisedIn_append, raisedIn_probing]
        rfl
      have hsplit : first ++ .raised (.ask question) registry :: last =
          (matter.probing n ++ [.lookedUp matter.subject type]) ++
            .raised (.ask (matter.question n type)) registry' :: further := by
        rw [hevents, List.append_assoc, List.singleton_append]
      obtain ⟨rfl, hsame, rfl⟩ :=
        eq_of_raised_once hsplit (hahead ▸ List.not_mem_nil) (hfurther ▸ List.not_mem_nil)
      cases hsame
      obtain ⟨hhead, -⟩ := List.cons_eq_cons.mp (List.append_cancel_left hsplit)
      exact ⟨type, code, place, hstands, rfl, hcode, rfl, hhead ▸ hoffered⟩

/-- A report that is not made by an extension, if the event is one. -/
def Event.finding? : Event ι → Option Diagnostic
  | reported d => if d.code = .extensionError then none else some d
  | _ => none

/-- What is reported, but not by extensions. -/
def findingsIn (events : List (Event ι)) : List Diagnostic := events.filterMap Event.finding?

theorem findingsIn_append (events rest : List (Event ι)) :
    findingsIn (events ++ rest) = findingsIn events ++ findingsIn rest :=
  List.filterMap_append

theorem Event.finding?_of_isDeed (e : Event ι) (h : e.isDeed) : e.finding? = none := by
  cases e with
  | reported d => exact if_pos (of_decide_eq_true h)
  | _ => rfl

theorem mem_findingsIn {d : Diagnostic} (hd : d.code ≠ .extensionError)
    (h : events = first ++ .reported d :: last) : d ∈ findingsIn events := by
  rw [h]
  exact List.mem_filterMap.mpr
    ⟨.reported d, List.mem_append_right first List.mem_cons_self, if_neg hd⟩

/-- Where only one finding is reported, two ways to part a list there are the same. -/
theorem eq_of_found_once {ahead : List (Event ι)} {d d' : Diagnostic}
    (h : first ++ .reported d :: last = ahead ++ .reported d' :: rest) (hd : d.code ≠ .extensionError)
    (hahead : findingsIn ahead = []) (hrest : findingsIn rest = []) :
    first = ahead ∧ d = d' ∧ last = rest := by
  have hnone {list : List (Event ι)} (hlist : findingsIn list = []) : .reported d ∉ list := by
    intro hmem
    obtain ⟨first, last, hsplit⟩ := List.append_of_mem hmem
    have hfound := mem_findingsIn hd hsplit
    rw [hlist] at hfound
    cases hfound
  obtain ⟨hahead, hsame, hrest⟩ :=
    (List.append_cons_inj_of_notMem (hnone hahead) (hnone hrest)).mp h.symm
  cases hsame
  exact ⟨hahead.symm, rfl, hrest.symm⟩

theorem Exchange.findings {use : HookCall Occurrence CheckedType} {answer : use.Answer}
    (h : Exchange use answer events) : findingsIn events = [] := by
  obtain ⟨registry, hmap⟩ := h.filterMap Event.finding?_of_isDeed
  exact hmap

theorem Narrowing.findings {found chosen : List (Candidate CheckedType)}
    (h : Narrowing n found chosen events) : findingsIn events = [] := by
  cases h with
  | several _ h => exact h.findings
  | few => rfl

theorem Selecting.findings {target : Candidate CheckedType} (h : Selecting n target events) :
    findingsIn events = [] := by
  obtain ⟨h⟩ := h
  exact h.findings

/-- What is reported of an offer comes last, and nobody took care of it. -/
theorem Offered.of_reported {code : Code} {message : String} {place : Occurrence} {d : Diagnostic}
    (h : Offered question code message place events) (hd : d.code ≠ .extensionError)
    (hevents : events = first ++ .reported d :: last) :
    Exchange (.ask question) false first ∧ d = ⟨code, .error, message, some place.location⟩ := by
  have hfound := mem_findingsIn hd hevents
  cases h with
  | handled h =>
      rw [h.findings] at hfound
      cases hfound
  | unhandled h =>
      obtain ⟨rfl, rfl, -⟩ := eq_of_found_once hevents.symm hd h.findings rfl
      exact ⟨h, rfl⟩

/-- The stretch of a journal in which a method is sought for a call of a member that the compiler does not
know, given the types of the nodes: those of the object and of the arguments are looked up, and the
extensions are asked with them. -/
inductive Search (type : Occurrence → CheckedType) (call object name : Occurrence)
    (chosen : List (Candidate CheckedType)) : List (Event ι) → Prop
  | mk {found contributing narrowing} : call.member? = some (object, name) →
      name.node.info.hasSymbol = false → (type object).isUnchecked = false →
      Exchange (.contribute ⟨type object, name.text, call.withRole .argument,
        (call.withRole .argument).map type, call⟩) found contributing →
      Narrowing call found chosen narrowing →
      Search type call object name chosen (.lookedUp object (type object) ::
        ((call.withRole .argument).map fun a => .lookedUp a (type a)) ++ contributing ++ narrowing)

/-- What is reported for a node, given the types of the nodes, and the stretch that leads up to it. -/
inductive Complaint (type : Occurrence → CheckedType) (n : Occurrence) :
    List (Event ι) → Diagnostic → Prop
  | variable {asked} : n.readsVariable → n.hasVariableSymbol = false →
      Exchange (.ask (.unresolvedVariable n)) false asked →
      Complaint type n (.probed n false :: asked)
        ⟨.unresolvedVariable, .error, "Cannot find variable '" ++ n.text ++ "'", some n.location⟩
  | inquiry {matter code place asked} : n.matter? = some matter →
      matter.Stands n (type matter.subject) →
      (matter.question n (type matter.subject)).mistake? = some (code, place) →
      Exchange (.ask (matter.question n (type matter.subject))) false asked →
      Complaint type n (matter.probing n ++ .lookedUp matter.subject (type matter.subject) :: asked)
        ⟨code, .error, matter.message (type matter.subject), some place.location⟩
  | missing {object name search} : Search type n object name [] search →
      Complaint type n search ⟨.missingMethod, .error, "Cannot find matching method "
        ++ (type object).text ++ "#" ++ name.text ++ "("
        ++ ", ".intercalate ((n.withRole .argument).map fun a => (type a).text) ++ ")",
        some name.location⟩
  | ambiguous {object name chosen search} : Search type n object name chosen search →
      1 < chosen.length →
      Complaint type n search ⟨.ambiguousMethod, .error, "Reference to method is ambiguous. "
        ++ "Cannot choose between " ++ ", ".intercalate (chosen.map (·.describe (·.text))),
        some name.location⟩

theorem VariableCheck.complaint {type : Occurrence → CheckedType} {d : Diagnostic}
    (h : VariableCheck n events) (hd : d.code ≠ .extensionError)
    (hevents : events = first ++ .reported d :: last) : Complaint type n first d := by
  have hfound := mem_findingsIn hd hevents
  cases h with
  | unread | known => cases hfound
  | unknown hreads hsymbol hoffered =>
      cases first with
      | nil => cases hevents
      | cons e first =>
          obtain ⟨rfl, hrest⟩ := List.cons_eq_cons.mp hevents
          obtain ⟨hasked, rfl⟩ := hoffered.of_reported hd hrest
          exact .variable hreads hsymbol hasked

section

variable {before : List (Event ι)} {d : Diagnostic}

/-- What holds of all entries, each given those before it, holds of those before some point too. -/
theorem follows_before (hfollows : ∀ {a e b}, events = a ++ e :: b → Event.FollowsFrom a e)
    (hsplit : events = past ++ rest) : ∀ {a e b}, past = a ++ e :: b → Event.FollowsFrom a e := by
  intro a e b hearlier
  exact hfollows (b := b ++ rest) (by rw [hsplit, hearlier, List.append_assoc, List.cons_append])

/-- The types that are looked up one after the other are those in force before. -/
theorem types_eq_of_lookUps (hfollows : ∀ {a e b}, past = a ++ e :: b → Event.FollowsFrom a e)
    {nodes : List Occurrence} {types : List CheckedType} (hlength : types.length = nodes.length)
    (hsplit : past = before ++ (List.zipWith .lookedUp nodes types ++ rest)) :
    types = nodes.map (typeIn before) := by
  induction nodes generalizing before types with
  | nil => exact List.length_eq_zero_iff.mp hlength
  | cons node nodes ih =>
      cases types with
      | nil => cases hlength
      | cons type types =>
          have hhere : type = typeIn before node := hfollows hsplit
          have hrest : past = (before ++ [.lookedUp node type]) ++
              (List.zipWith .lookedUp nodes types ++ rest) := by
            rw [hsplit, List.append_assoc]
            rfl
          have hsame : typeIn (before ++ [.lookedUp node type]) = typeIn before :=
            funext fun _ => typeIn_concat rfl
          rw [List.map_cons, ← hhere, ← hsame, ← ih (Nat.succ.inj hlength) hrest]

variable (hfollows : ∀ {a e b}, before ++ first = a ++ e :: b → Event.FollowsFrom a e)
  (hd : d.code ≠ .extensionError) (hevents : events = first ++ .reported d :: last)

include hfollows in
/-- The types with which a method is sought are those in force before. -/
theorem search_of_lookUps {object name : Occurrence} {receiver : CheckedType} {types : List CheckedType}
    {found chosen : List (Candidate CheckedType)} {contributing narrowing : List (Event ι)}
    (hmember : n.member? = some (object, name)) (hsymbol : name.node.info.hasSymbol = false)
    (hunchecked : receiver.isUnchecked = false)
    (hlength : types.length = (n.withRole .argument).length)
    (hcontributing : Exchange (.contribute ⟨receiver, name.text, n.withRole .argument, types, n⟩) found
      contributing)
    (hnarrowing : Narrowing n found chosen narrowing)
    (hfirst : first = .lookedUp object receiver ::
      (List.zipWith .lookedUp (n.withRole .argument) types ++ contributing ++ narrowing)) :
    receiver = typeIn before object ∧ types = (n.withRole .argument).map (typeIn before) ∧
      Search (typeIn before) n object name chosen first := by
  subst hfirst
  obtain rfl : receiver = typeIn before object := hfollows rfl
  have hsame : typeIn (before ++ [.lookedUp object (typeIn before object)]) = typeIn before :=
    funext fun _ => typeIn_concat rfl
  have htypes : types = (n.withRole .argument).map (typeIn before) := by
    rw [← hsame]
    have hsplit : before ++ (.lookedUp object (typeIn before object) ::
        (List.zipWith .lookedUp (n.withRole .argument) types ++ contributing ++ narrowing)) =
          (before ++ [.lookedUp object (typeIn before object)]) ++
            (List.zipWith .lookedUp (n.withRole .argument) types ++ (contributing ++ narrowing)) := by
      simp
    exact types_eq_of_lookUps hfollows hlength hsplit
  subst htypes
  refine ⟨rfl, rfl, ?_⟩
  rw [List.zipWith_map_right, List.zipWith_self]
  exact .mk hmember hsymbol hunchecked hcontributing hnarrowing

include hfollows hd hevents

/-- A report that an inquiry ends with tells of the type that was looked up. -/
theorem Inquiry.complaint (h : Inquiry n matter events) (hmatter : n.matter? = some matter) :
    Complaint (typeIn before) n first d := by
  have hprobing : findingsIn (matter.probing (ι := ι) n) = [] := by
    rw [Matter.probing]
    split <;> rfl
  have hfound := mem_findingsIn hd hevents
  cases h with
  | spared | vouched => cases hfound
  | settled =>
      rw [findingsIn_append, hprobing] at hfound
      cases hfound
  | @offered type code place rest hstands hcode hoffered =>
      have hahead {asked : List (Event ι)} (hasked : findingsIn asked = []) :
          findingsIn (matter.probing n ++ .lookedUp matter.subject type :: asked) = [] := by
        rw [findingsIn_append, hprobing]
        exact hasked
      cases hoffered with
      | handled hasked =>
          rw [hahead hasked.findings] at hfound
          cases hfound
      | @unhandled asked hasked =>
          rw [← List.cons_append, ← List.append_assoc] at hevents
          obtain ⟨rfl, rfl, -⟩ := eq_of_found_once hevents.symm hd (hahead hasked.findings) rfl
          have hlookup : Event.FollowsFrom (before ++ matter.probing n) (.lookedUp matter.subject type) :=
            hfollows (b := asked) (by simp)
          obtain rfl : type = typeIn before matter.subject := by
            rw [show type = _ from hlookup, Matter.probing]
            split
            · exact typeIn_concat rfl
            · rw [List.append_nil]
          exact .inquiry hmatter hstands hcode hasked

/-- A report that the resolution of a call ends with tells of the types that were looked up. -/
theorem Resolution.complaint (h : Resolution n events) : Complaint (typeIn before) n first d := by
  have hfound := mem_findingsIn hd hevents
  cases h with
  | compiled _ h =>
      obtain rfl | ⟨target, h⟩ := h
      · cases hfound
      · rw [h.findings] at hfound
        cases hfound
  | unchecked => cases hfound
  | @supplied object name receiver types found chosen contributing narrowing choosing hmember hsymbol
      hunchecked hlength hcontributing hnarrowing hchoosing =>
      have hahead : findingsIn (.lookedUp object receiver :: (List.zipWith .lookedUp
          (n.withRole .argument) types ++ contributing ++ narrowing)) = [] := by
        have hall := filterMap_supplied Event.finding?_of_isDeed object receiver
          (n.withRole .argument) types contributing narrowing []
        rw [List.append_nil] at hall
        rw [findingsIn, hall]
        show findingsIn contributing ++ findingsIn narrowing ++ [] = []
        rw [hcontributing.findings, hnarrowing.findings]
        rfl
      rw [← List.cons_append] at hevents hfound
      cases hchoosing with
      | none =>
          obtain ⟨hfirst, rfl, -⟩ := eq_of_found_once hevents.symm hd hahead rfl
          obtain ⟨rfl, rfl, hsearch⟩ := search_of_lookUps hfollows hmember hsymbol hunchecked hlength
            hcontributing hnarrowing hfirst
          rw [List.map_map]
          exact .missing hsearch
      | one h =>
          rw [findingsIn_append, hahead, h.findings] at hfound
          cases hfound
      | many hmany =>
          obtain ⟨hfirst, rfl, -⟩ := eq_of_found_once hevents.symm hd hahead rfl
          obtain ⟨rfl, rfl, hsearch⟩ := search_of_lookUps hfollows hmember hsymbol hunchecked hlength
            hcontributing hnarrowing hfirst
          exact .ambiguous hsearch hmany

/-- Whatever is reported, other than by extensions, is a complaint about the node that the walk is at. -/
theorem Piece.complaint (h : Piece journal n events) : Complaint (typeIn before) n first d := by
  have hfound := mem_findingsIn hd hevents
  have hnone {P : Prop} (h : findingsIn events = []) : P := by
    rw [h] at hfound
    cases hfound
  cases h with
  | «variable» _ hcheck => exact hcheck.complaint hd hevents
  | opening hopening =>
      cases hopening with
      | plain => exact hnone rfl
      | closure _ hduring =>
          refine hnone ?_
          rw [findingsIn_append, findingsIn, filterMap_deeds Event.finding?_of_isDeed hduring]
          rfl
      | announced _ hasked => exact hnone hasked.findings
  | closing _ _ hclosing =>
      cases hclosing with
      | passed _ htold => exact hnone htold.findings
      | plain _ hremark =>
          cases hremark with
          | nothing => exact hnone rfl
          | inquiry hmatter hinquiry => exact hinquiry.complaint hfollows hd hevents hmatter
      | @announced _ _ own told _ hown htold =>
          rcases append_eq_append_cons hevents with ⟨between, hhere, -⟩ | ⟨between, -, htail⟩
          · split at hown
            · exact hown.complaint hfollows hd hhere
            · rw [hown] at hhere
              simp at hhere
          · have hlate := mem_findingsIn hd htail
            rw [htold.findings] at hlate
            cases hlate

end

/-- A report in the journal of a check is a complaint about a node that is reached, and tells of the types
that were in force when the walk came to it. -/
theorem Course.exists_complaint {p : Program} {further : List (Event ι)} {d : Diagnostic}
    (h : Course p (events ++ further)) (hjournal : Consistent journal (events ++ further))
    (hfollows : ∀ {a e b}, events = a ++ e :: b → Event.FollowsFrom a e)
    (hd : d.code ≠ .extensionError) (hsplit : events = past ++ .reported d :: rest) :
    ∃ n before stretch, past = before ++ stretch ∧ p.Reaches journal n ∧
      Complaint (typeIn before) n stretch d := by
  have hlonger : events ++ further = past ++ .reported d :: (rest ++ further) := by
    rw [hsplit, List.append_assoc, List.cons_append]
  rcases h.exists_piece hjournal hlonger with
    hambient | ⟨n, before, first, last, after, rfl, -, hreaches, hpiece⟩
  · exact absurd (of_decide_eq_true hambient) hd
  · exact ⟨n, before, first, rfl, hreaches, hpiece.complaint (follows_before hfollows hsplit) hd rfl⟩

/-- The extensions are asked for a method right after the types of the object and of the arguments were
looked up. -/
theorem Resolution.of_contributed {missing : MissingMethod Occurrence CheckedType}
    (h : Resolution n (first ++ .raised (.contribute missing) registry :: last)) :
    ∃ object name receiver types, n.member? = some (object, name) ∧
      types.length = (n.withRole .argument).length ∧
      missing = ⟨receiver, name.text, n.withRole .argument, types, n⟩ ∧
      first = .lookedUp object receiver :: List.zipWith .lookedUp (n.withRole .argument) types := by
  have huse : HookCall.contribute missing ∈
      raisedIn (first ++ .raised (.contribute missing) registry :: last) :=
    mem_raisedIn.mpr ⟨registry, List.mem_append_right first List.mem_cons_self⟩
  generalize hevents : first ++ .raised (.contribute missing) registry :: last = events at h huse
  cases h with
  | compiled _ h =>
      obtain rfl | ⟨target, h⟩ := h
      · cases huse
      · rw [h.raised] at huse
        cases List.mem_singleton.mp huse
  | unchecked => cases huse
  | @supplied object name receiver types found chosen contributing narrowing choosing hmember _ _
      hlength hcontributing hnarrowing hchoosing =>
      obtain ⟨registry', further, rfl, hfurther⟩ := hcontributing.begins
      have hlookUps : raisedIn (ι := ι) (.lookedUp object receiver ::
          List.zipWith .lookedUp (n.withRole .argument) types) = [] := by
        have hall := filterMap_supplied (ι := ι) Event.raised?_of_isDeed object receiver
          (n.withRole .argument) types [] [] []
        rwa [List.append_nil, List.append_nil, List.append_nil] at hall
      have hlater : HookCall.contribute missing ∉ raisedIn (further ++ narrowing ++ choosing) := by
        rw [raisedIn_append, raisedIn_append, hfurther, List.nil_append]
        intro hmem
        rcases List.mem_append.mp hmem with hmem | hmem
        · obtain h | ⟨_, h⟩ := hnarrowing.raised <;> rw [h] at hmem
          · exact nomatch hmem
          · cases List.mem_singleton.mp hmem
        · obtain h | ⟨_, h⟩ := hchoosing.raised <;> rw [h] at hmem
          · exact nomatch hmem
          · cases List.mem_singleton.mp hmem
      have hsplit : first ++ .raised (.contribute missing) registry :: last =
          (.lookedUp object receiver :: List.zipWith .lookedUp (n.withRole .argument) types) ++
            .raised (.contribute ⟨receiver, name.text, n.withRole .argument, types, n⟩) registry' ::
              (further ++ narrowing ++ choosing) := by
        rw [hevents]
        simp
      obtain ⟨hfirst, hhere, -⟩ := eq_of_raised_once hsplit (hlookUps ▸ List.not_mem_nil) hlater
      cases hhere
      exact ⟨object, name, receiver, types, hmember, hlength, rfl, hfirst⟩

/-- A method is asked for only when the walk resolves a call that it reached and nobody took over. -/
theorem Piece.resolution_of_contributed {missing : MissingMethod Occurrence CheckedType}
    (h : Piece journal n (first ++ .raised (.contribute missing) registry :: last)) :
    n = missing.call ∧ n.isVariable = false ∧ ¬ n.TakenOver journal ∧
      ∃ last, Resolution n (first ++ .raised (.contribute missing) registry :: last) := by
  have huse : HookCall.contribute missing ∈
      raisedIn (first ++ .raised (.contribute missing) registry :: last) :=
    mem_raisedIn.mpr ⟨registry, List.mem_append_right first List.mem_cons_self⟩
  obtain ⟨rfl, hcall, hfree⟩ := h.call_of_resolves huse .missing
  generalize hevents : first ++ .raised (.contribute missing) registry :: last = events at h huse
  cases h with
  | «variable» _ hcheck =>
      cases hcheck.eq_of_raised huse
  | opening hopening =>
      obtain ⟨_, _, -, hbefore⟩ := hopening.eq_of_raised huse
      cases hbefore
  | closing hvariable _ hclosing =>
      refine ⟨rfl, hvariable, hfree, ?_⟩
      cases hclosing with
      | plain _ hremark =>
          obtain h | ⟨_, -, h⟩ := hremark.raised <;> rw [h] at huse
          · exact nomatch huse
          · cases List.mem_singleton.mp huse
      | passed _ htold =>
          rw [htold.raised] at huse
          cases List.mem_singleton.mp huse
      | @announced _ _ own told _ hown htold =>
          rw [if_pos hcall] at hown
          rcases append_eq_append_cons hevents.symm with ⟨between, hhere, -⟩ | ⟨between, -, htail⟩
          · exact ⟨between, hhere ▸ hown⟩
          · have hlate : HookCall.contribute missing ∈ raisedIn told :=
              mem_raisedIn.mpr ⟨registry, htail ▸ List.mem_append_right _ List.mem_cons_self⟩
            rw [htold.raised] at hlate
            cases List.mem_singleton.mp hlate

end

end ExtensibleCheck
