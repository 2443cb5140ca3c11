import ExtensibleCheck.Proofs.Walk.Reach

/-! What happens to a node at most once in a check. No node is visited twice, so its announcement is
answered once, at most one method is selected for it, and a variable is looked for once. -/

namespace ExtensibleCheck

open Occurrence

section

variable {ι : Type} {nodes : List Occurrence} {events journal : List (Event ι)} {o : Occurrence}

/-- What can be noted of a node only once: how its announcement was answered, that a method is selected
for it, that this is told, that it is asked whether anything is stored for it, and that it is offered as
an access of a member that is not there. -/
inductive Landmark where
  | answered (hook : Hook)
  | selected
  | told
  | sought
  | offered

def Event.mark? : Event ι → Option (Landmark × NodeId)
  | settled (.ask question) _ =>
    if question.hook ∈ [.beforeVisitMethod, .beforeVisitClass, .beforeMethodCall] then
      some (.answered question.hook, question.node.id)
    else none
  | selected call _ => some (.selected, call.id)
  | raised (.notify (.methodSelection call _)) _ => some (.told, call.id)
  | probed o _ => some (.sought, o.id)
  | raised (.ask (.unresolvedProperty o)) _ | raised (.ask (.unresolvedAttribute o)) _ =>
    some (.offered, o.id)
  | _ => none

/-- The marks in a journal, in order. -/
def marks (events : List (Event ι)) : List (Landmark × NodeId) := events.filterMap Event.mark?

theorem marks_append (events rest : List (Event ι)) :
    marks (events ++ rest) = marks events ++ marks rest :=
  List.filterMap_append

theorem Event.mark?_of_isDeed (e : Event ι) (h : e.isDeed) : e.mark? = none := by
  cases e <;> first | rfl | cases h

theorem VariableCheck.marks (h : VariableCheck o events) :
    marks events = [] ∨ marks events = [(.sought, o.id)] := by
  cases h with
  | unread => exact Or.inl rfl
  | known => exact Or.inr rfl
  | unknown _ _ hoffered =>
      obtain ⟨registry, handled, hmap⟩ := hoffered.filterMap Event.mark?_of_isDeed rfl
      exact Or.inr (congrArg ((Landmark.sought, o.id) :: ·) hmap)

/-- What is looked for comes before what is offered. -/
theorem Remark.marks (h : Remark o events) :
    ∃ ms ∈ [[], [.sought], [.sought, .offered]], marks events = ms.map fun m => (m, o.id) := by
  have hprobing (matter : Matter) : ExtensibleCheck.marks (matter.probing (ι := ι) o) =
      if matter.isAccess then [(.sought, o.id)] else [] := by
    rw [Matter.probing]
    split <;> rfl
  cases h with
  | nothing => exact ⟨[], by simp, rfl⟩
  | @inquiry matter events _ h =>
      cases h with
      | spared => exact ⟨[], by simp, rfl⟩
      | vouched => exact ⟨[.sought], by simp, rfl⟩
      | settled =>
          rw [marks_append, hprobing]
          cases matter.isAccess
          · exact ⟨[], by simp, rfl⟩
          · exact ⟨[.sought], by simp, rfl⟩
      | @offered type _ _ rest _ _ hoffered =>
          obtain ⟨registry, handled, hmap⟩ := hoffered.filterMap Event.mark?_of_isDeed rfl
          have hrest : ExtensibleCheck.marks (.lookedUp matter.subject type :: rest) =
              ExtensibleCheck.marks rest := rfl
          rw [marks_append, hprobing, hrest, ExtensibleCheck.marks, hmap]
          cases matter with
          | property | element => exact ⟨[.sought, .offered], by simp, rfl⟩
          | assigned | returned => exact ⟨[], by simp, rfl⟩

theorem Selecting.marks {target : Candidate CheckedType} (h : Selecting o target events) :
    marks events = [(.selected, o.id), (.told, o.id)] := by
  obtain ⟨h⟩ := h
  obtain ⟨registry, hmap⟩ := h.filterMap Event.mark?_of_isDeed
  exact congrArg ((.selected, o.id) :: ·) hmap

theorem Resolution.marks (h : Resolution o events) :
    marks events = [] ∨ marks events = [(.selected, o.id), (.told, o.id)] := by
  cases h with
  | compiled _ h =>
      rcases h with rfl | ⟨target, h⟩
      · exact Or.inl rfl
      · exact Or.inr h.marks
  | unchecked => exact Or.inl rfl
  | @supplied object name receiver types found chosen contributing narrowing choosing _ _ _ _
      hcontributing hnarrowing hchoosing =>
      have hcontributed : ExtensibleCheck.marks contributing = [] := by
        obtain ⟨registry, hmap⟩ := hcontributing.filterMap Event.mark?_of_isDeed
        exact hmap
      have hnarrowed : ExtensibleCheck.marks narrowing = [] := by
        cases hnarrowing with
        | several _ h =>
            obtain ⟨registry, hmap⟩ := h.filterMap Event.mark?_of_isDeed
            exact hmap
        | few => rfl
      rw [ExtensibleCheck.marks, filterMap_supplied Event.mark?_of_isDeed]
      show ExtensibleCheck.marks contributing ++ ExtensibleCheck.marks narrowing ++
          ExtensibleCheck.marks choosing = [] ∨
        ExtensibleCheck.marks contributing ++ ExtensibleCheck.marks narrowing ++
          ExtensibleCheck.marks choosing = _
      rw [hcontributed, hnarrowed, List.append_nil, List.nil_append]
      cases hchoosing with
      | none => exact Or.inl rfl
      | one h => exact Or.inr h.marks
      | many => exact Or.inl rfl

/-- The brackets of an announced node leave one mark, when the announcement is answered. -/
theorem marks_of_announcement? {before : Question Occurrence CheckedType}
    {after : Notice Occurrence CheckedType} (h : o.announcement? = some (before, after)) :
    (∀ registry, (Event.raised (ι := ι) (.ask before) registry).mark? = none ∧
      (Event.raised (ι := ι) (.notify after) registry).mark? = none) ∧
      ∃ hook, ∀ taken,
        (Event.settled (ι := ι) (.ask before) taken).mark? = some (.answered hook, o.id) := by
  rw [announcement?] at h
  split at h
  · cases h
    exact ⟨fun _ => ⟨rfl, rfl⟩, .beforeVisitClass, fun _ => rfl⟩
  · split at h
    · cases h
      exact ⟨fun _ => ⟨rfl, rfl⟩, .beforeVisitMethod, fun _ => rfl⟩
    · cases h
  · cases h
    exact ⟨fun _ => ⟨rfl, rfl⟩, .beforeMethodCall, fun _ => rfl⟩
  · cases h

theorem Opening.marks {enters : Bool} (h : Opening o enters events) :
    marks events = [] ∨ ∃ hook, marks events = [(.answered hook, o.id)] := by
  cases h with
  | plain => exact Or.inl rfl
  | closure _ hduring =>
      rw [marks_append, ExtensibleCheck.marks, filterMap_deeds Event.mark?_of_isDeed hduring]
      exact Or.inl rfl
  | @announced before after taken _ hannounced hasked =>
      obtain ⟨hraised, hook, hmark⟩ := marks_of_announcement? (ι := ι) hannounced
      obtain ⟨registry, hmap⟩ := hasked.filterMap Event.mark?_of_isDeed
      refine Or.inr ⟨hook, ?_⟩
      rw [ExtensibleCheck.marks, hmap, (hraised registry).1, hmark]
      rfl

/-- When a node is closed, everything is noted of that node, and no answer to its announcement. -/
theorem Closing.marks {enters : Bool} (h : Closing o enters events) : ∃ ms : List Landmark,
    marks events = ms.map (fun m => (m, o.id)) ∧ ms.Nodup ∧ ∀ hook, .answered hook ∉ ms := by
  have hafter {before : Question Occurrence CheckedType} {after : Notice Occurrence CheckedType}
      {told : List (Event ι)} (hannounced : o.announcement? = some (before, after))
      (h : Exchange (.notify after) () told) : ExtensibleCheck.marks told = [] := by
    obtain ⟨registry, hmap⟩ := h.filterMap Event.mark?_of_isDeed
    rw [ExtensibleCheck.marks, hmap, ((marks_of_announcement? hannounced).1 registry).2]
    rfl
  cases h with
  | plain _ h =>
      obtain ⟨ms, hms, hmarks⟩ := h.marks
      refine ⟨ms, hmarks, ?_⟩
      simp only [List.mem_cons, List.not_mem_nil, or_false] at hms
      rcases hms with rfl | rfl | rfl <;> simp
  | announced hannounced hown htold =>
      rw [marks_append, hafter hannounced htold, List.append_nil]
      split at hown
      · rcases hown.marks with hmarks | hmarks <;> rw [hmarks]
        · exact ⟨[], rfl, by simp⟩
        · exact ⟨[.selected, .told], rfl, by simp⟩
      · exact ⟨[], hown ▸ rfl, by simp⟩
  | passed hannounced htold => exact ⟨[], hafter hannounced htold, by simp⟩

theorem Piece.id_of_mark (h : Piece journal o events) {mark : Landmark × NodeId}
    (hmark : mark ∈ marks events) : mark.2 = o.id := by
  have hall (ms : List Landmark) (h : marks events = ms.map (·, o.id)) : mark.2 = o.id := by
    rw [h] at hmark
    obtain ⟨m, -, rfl⟩ := List.mem_map.mp hmark
    rfl
  cases h with
  | «variable» _ h => exact h.marks.elim (hall []) (hall [.sought])
  | opening h =>
      obtain h | ⟨hook, h⟩ := h.marks
      · exact hall [] h
      · exact hall [.answered hook] h
  | closing _ _ h =>
      obtain ⟨ms, hmarks, -⟩ := h.marks
      exact hall ms hmarks

theorem Trail.exists_of_mark (h : Trail nodes events) {mark : Landmark × NodeId}
    (hmark : mark ∈ marks events) : ∃ o ∈ nodes, ∃ n, o.Reaches ([] : List (Event ι)) n ∧ mark.2 = n.id := by
  obtain ⟨e, he, hmark⟩ := List.mem_filterMap.mp hmark
  obtain ⟨past, rest, hsplit⟩ := List.append_of_mem he
  rcases h.exists_piece consistent_nil hsplit with
    hdeed | ⟨o, ho, n, -, first, last, -, -, -, hreaches, hpiece⟩
  · rw [e.mark?_of_isDeed hdeed] at hmark
    cases hmark
  · refine ⟨o, ho, n, hreaches, hpiece.id_of_mark (List.mem_filterMap.mpr ⟨e, ?_, hmark⟩)⟩
    exact List.mem_append_right _ List.mem_cons_self

/-- What can be noted only once is noted only once, as long as no node is visited twice. -/
theorem Trail.nodup_marks (h : Trail nodes events) (hapart : nodes.Pairwise Apart)
    (hself : ∀ o ∈ nodes, o ∈ o.lineage) : (marks events).Nodup := by
  induction h with
  | aside hdeeds =>
      rw [marks, filterMap_deeds Event.mark?_of_isDeed hdeeds]
      exact List.nodup_nil
  | @append nodes nodes' first second h h' ih ih' =>
      obtain ⟨hfirst, hsecond, hboth⟩ := List.pairwise_append.mp hapart
      rw [marks_append]
      refine List.nodup_append.mpr ⟨ih hfirst fun o ho => hself o (List.mem_append_left _ ho),
        ih' hsecond fun o ho => hself o (List.mem_append_right _ ho), ?_⟩
      rintro mark hmark _ hmark' rfl
      obtain ⟨o, ho, n, hreaches, hid⟩ := h.exists_of_mark hmark
      obtain ⟨o', ho', n', hreaches', hid'⟩ := h'.exists_of_mark hmark'
      exact hboth o ho o' ho' n n' (hreaches.mem_lineage (hself o (List.mem_append_left _ ho)))
        (hreaches'.mem_lineage (hself o' (List.mem_append_right _ ho'))) (hid.symm.trans hid')
  | «variable» _ hcheck =>
      rcases hcheck.marks with h | h <;> rw [h]
      · exact List.nodup_nil
      · exact List.nodup_singleton _
  | @node o enters opening inner closing hvariable hopening htrail hclosing ih =>
      have hchildren : ∀ c ∈ (if enters then o.entered else []), c ∈ o.children :=
        fun _ hc => mem_children_of_entered hvariable hc
      have hinner : (marks inner).Nodup := by
        refine ih (pairwise_apart ?_ hchildren) fun c hc => ?_
        · cases enters with
          | false => exact List.nodup_nil
          | true => exact o.nodup_entered
        · exact mem_lineage_self (hchildren c hc)
      -- The marks of the node itself carry its own address, those between them others.
      have hbelow : ∀ mark ∈ marks inner, mark.2 ≠ o.id := by
        intro mark hmark
        obtain ⟨c, hc, n, hreaches, hid⟩ := htrail.exists_of_mark hmark
        have hchild := hchildren c hc
        rw [hid]
        exact (id_ne_of_mem_lineage hchild (hreaches.mem_lineage (mem_lineage_self hchild))).symm
      have hopen : (marks opening).Nodup ∧ ∀ mark ∈ marks opening,
          (∃ hook, mark.1 = .answered hook) ∧ mark.2 = o.id := by
        obtain h | ⟨hook, h⟩ := hopening.marks <;> rw [h]
        · exact ⟨List.nodup_nil, fun _ h => nomatch h⟩
        · refine ⟨List.nodup_singleton _, fun mark hmark => ?_⟩
          rw [List.mem_singleton.mp hmark]
          exact ⟨⟨hook, rfl⟩, rfl⟩
      have hclose : (marks closing).Nodup ∧ ∀ mark ∈ marks closing,
          (∀ hook, mark.1 ≠ .answered hook) ∧ mark.2 = o.id := by
        obtain ⟨ms, h, hnodup, hother⟩ := hclosing.marks
        rw [h]
        refine ⟨hnodup.map fun _ _ h => congrArg Prod.fst h, fun mark hmark => ?_⟩
        obtain ⟨m, hm, rfl⟩ := List.mem_map.mp hmark
        exact ⟨fun hook hanswered => hother hook (hanswered ▸ hm), rfl⟩
      rw [marks_append, marks_append]
      refine List.nodup_append.mpr ⟨List.nodup_append.mpr ⟨hopen.1, hinner, ?_⟩, hclose.1, ?_⟩
      · rintro mark hmark _ hmark' rfl
        exact hbelow mark hmark' (hopen.2 mark hmark).2
      · rintro mark hmark _ hmark' rfl
        rcases List.mem_append.mp hmark with hmark | hmark
        · obtain ⟨hook, hanswered⟩ := (hopen.2 mark hmark).1
          exact (hclose.2 mark hmark').1 hook hanswered
        · exact hbelow mark hmark (hclose.2 mark hmark').2

end

section

variable {ι : Type} {p : Program} {events journal : List (Event ι)}

/-- Whether an event belongs to no node in particular: a deed, or that the extensions are set up or
finish. -/
def Event.isAmbient : Event ι → Bool
  | raised (.notify .setup) _ | settled (.notify .setup) _ => true
  | raised (.notify .finish) _ | settled (.notify .finish) _ => true
  | e => e.isDeed

theorem Event.isAmbient_of_isDeed {e : Event ι} (h : e.isDeed) : e.isAmbient := by
  cases e with
  | raised | settled => cases h
  | _ => exact h

theorem Event.mark?_of_isAmbient (e : Event ι) (h : e.isAmbient) : e.mark? = none := by
  cases e with
  | raised call =>
      cases call with
      | notify notice => cases notice <;> first | rfl | cases h
      | narrow | contribute => rfl
      | ask => cases h
  | settled call =>
      cases call with
      | ask => cases h
      | _ => rfl
  | _ => exact mark?_of_isDeed _ h

/-- Around the walks through the files, nothing is done for any node. -/
theorem Course.exists_trail (h : Course p events) : ∃ before tour after,
    events = before ++ tour ++ after ∧ Trail p.tops tour ∧
      (∀ e ∈ before, e.isAmbient) ∧ ∀ e ∈ after, e.isAmbient := by
  have hends {notice : Notice Occurrence CheckedType} {told : List (Event ι)}
      (hnotice : notice = .setup ∨ notice = .finish) (h : Exchange (.notify notice) () told) :
      ∀ e ∈ told, e.isAmbient := by
    obtain ⟨registry, hduring⟩ := h
    intro e he
    rcases List.mem_cons.mp he with rfl | he
    · rcases hnotice with rfl | rfl <;> rfl
    rcases List.mem_append.mp he with he | he
    · exact Event.isAmbient_of_isDeed (hduring e he)
    · obtain rfl := List.mem_singleton.mp he
      rcases hnotice with rfl | rfl <;> rfl
  obtain ⟨hcreated, hopened, htour, hclosed⟩ := h
  refine ⟨_, _, _, rfl, htour, fun e he => ?_, hends (Or.inr rfl) hclosed⟩
  rcases List.mem_append.mp he with he | he
  · exact Event.isAmbient_of_isDeed (hcreated e he)
  · exact hends (Or.inl rfl) hopened e he

theorem Course.nodup_marks (h : Course p events) (hnumbers : (p.files.map (·.number)).Nodup) :
    (marks events).Nodup := by
  obtain ⟨before, tour, after, rfl, htrail, hbefore, hafter⟩ := h.exists_trail
  have hnone {rest : List (Event ι)} (h : ∀ e ∈ rest, e.isAmbient) : marks rest = [] :=
    List.filterMap_eq_nil_iff.mpr fun e he => e.mark?_of_isAmbient (h e he)
  rw [marks_append, marks_append, hnone hbefore, hnone hafter, List.nil_append, List.append_nil]
  exact htrail.nodup_marks (Program.pairwise_apart_tops hnumbers) fun _ => Program.mem_lineage_top

/-- What was noted once is noted by no other entry. -/
theorem mark?_ne_of_nodup_marks {past rest : List (Event ι)} {e e' : Event ι} {mark : Landmark × NodeId}
    (h : (marks (past ++ e :: rest)).Nodup) (hmark : e.mark? = some mark) (he : e' ∈ past ++ rest) :
    e'.mark? ≠ some mark := by
  intro hmark'
  rw [marks_append, marks, marks, List.filterMap_cons_some hmark, List.nodup_middle,
    ← List.filterMap_append] at h
  exact (List.nodup_cons.mp h).1 (List.mem_filterMap.mpr ⟨e', he, hmark'⟩)

/-- So there is one way only to part a journal at a given mark. -/
theorem append_cons_inj_of_nodup_marks {past past' rest rest' : List (Event ι)} {e e' : Event ι}
    {mark : Landmark × NodeId} (h : (marks (past ++ e :: rest)).Nodup) (hmark : e.mark? = some mark)
    (hmark' : e'.mark? = some mark) (hsplit : past ++ e :: rest = past' ++ e' :: rest') :
    past = past' ∧ e = e' ∧ rest = rest' := by
  have hne : e' ∉ past ++ rest := fun he => mark?_ne_of_nodup_marks h hmark he hmark'
  exact (List.append_cons_inj_of_notMem (fun he => hne (List.mem_append_left _ he))
    fun he => hne (List.mem_append_right _ he)).mp hsplit

/-- What leaves a given mark happens once at most. -/
theorem countP_le_one_of_nodup_marks {q : Event ι → Bool} {mark : Landmark × NodeId}
    (h : (marks events).Nodup) (hq : ∀ e, q e → e.mark? = some mark) : events.countP q ≤ 1 := by
  rcases Nat.eq_zero_or_pos (events.countP q) with hnone | hsome
  · rw [hnone]
    exact Nat.zero_le 1
  · obtain ⟨e, he, hqe⟩ := List.countP_pos_iff.mp hsome
    obtain ⟨past, rest, rfl⟩ := List.append_of_mem he
    have hothers : (past ++ rest).countP q = 0 := List.countP_eq_zero.mpr fun e' he' hqe' =>
      mark?_ne_of_nodup_marks h (hq e hqe) he' (hq e' hqe')
    rw [List.countP_append] at hothers
    rw [List.countP_append, List.countP_cons, if_pos hqe]
    omega

theorem eq_of_nodup_marks (h : (marks events).Nodup) {e e' : Event ι} (he : e ∈ events)
    (he' : e' ∈ events) {mark : Landmark × NodeId} (hmark : e.mark? = some mark)
    (hmark' : e'.mark? = some mark) : e = e' := by
  obtain ⟨past, rest, rfl⟩ := List.append_of_mem he
  by_contra hne
  have hother : e' ∈ past ++ rest := by
    rcases List.mem_append.mp he' with he' | he'
    · exact List.mem_append_left _ he'
    · exact List.mem_append_right _ ((List.mem_cons.mp he').resolve_left fun h => hne h.symm)
  exact mark?_ne_of_nodup_marks h hmark hother hmark'

/-- No announcement is answered in two ways. -/
theorem Course.consistent (h : Course p events) (hnumbers : (p.files.map (·.number)).Nodup)
    (hsub : ∀ e ∈ journal, e ∈ events) : Consistent journal events := by
  intro n before after hannounced hfalse htrue
  obtain ⟨-, hook, hmark⟩ := marks_of_announcement? (ι := ι) hannounced
  cases eq_of_nodup_marks (h.nodup_marks hnumbers) hfalse (hsub _ htrue) (hmark false) (hmark true)

/-- Whatever is done for some node stands in the trail of the walks through the files. -/
theorem Course.exists_trail_around (h : Course p events) {past rest : List (Event ι)} {e : Event ι}
    (hsplit : events = past ++ e :: rest) :
    e.isAmbient ∨ ∃ left before after right, past = left ++ before ∧ rest = after ++ right ∧
      Trail p.tops (before ++ e :: after) := by
  obtain ⟨left, tour, right, rfl, htrail, hleft, hright⟩ := h.exists_trail
  rcases append_eq_append_cons hsplit with ⟨between, hearlier, rfl⟩ | ⟨between, rfl, hlater⟩
  · rcases append_eq_append_cons hearlier with ⟨between', hbefore, rfl⟩ | ⟨between', rfl, htour⟩
    · exact Or.inl (hleft e (by rw [hbefore]; simp))
    · exact Or.inr ⟨left, between', between, right, rfl, rfl, htour ▸ htrail⟩
  · exact Or.inl (hright e (by rw [hlater]; simp))

theorem Course.exists_moment (h : Course p events) (hjournal : Consistent journal events)
    {past rest : List (Event ι)} {e : Event ι} (hsplit : events = past ++ e :: rest) :
    e.isAmbient ∨ ∃ n earlier before after later, past = earlier ++ before ∧ rest = after ++ later ∧
      p.Reaches journal n ∧ Moment journal n e before after := by
  rcases h.exists_trail_around hsplit with hambient | ⟨left, past, rest, right, rfl, rfl, htrail⟩
  · exact Or.inl hambient
  have hconsistent : Consistent journal (past ++ e :: rest) := by
    refine hjournal.mono fun e' he => ?_
    rw [hsplit]
    rcases List.mem_append.mp he with he | he
    · exact List.mem_append_left _ (List.mem_append_right _ he)
    · exact List.mem_append_right _ (List.mem_append_left right he)
  rcases htrail.exists_moment hconsistent rfl with hdeed | hmoment
  · exact Or.inl (Event.isAmbient_of_isDeed hdeed)
  · obtain ⟨top, htop, n, earlier, before, after, later, rfl, rfl, hreaches, hmoment⟩ := hmoment
    exact Or.inr ⟨n, left ++ earlier, before, after, later ++ right, (List.append_assoc ..).symm,
      List.append_assoc .., ⟨top, htop, hreaches⟩, hmoment⟩

theorem Course.exists_piece (h : Course p events) (hjournal : Consistent journal events)
    {past rest : List (Event ι)} {e : Event ι} (hsplit : events = past ++ e :: rest) :
    e.isAmbient ∨ ∃ n before first last after, past = before ++ first ∧ rest = last ++ after ∧
      p.Reaches journal n ∧ Piece journal n (first ++ e :: last) := by
  refine (h.exists_moment hjournal hsplit).imp_right ?_
  rintro ⟨n, earlier, before, after, later, rfl, rfl, hreaches, hmoment⟩
  obtain ⟨between, first, last, between', rfl, rfl, hpiece⟩ := hmoment.exists_piece
  exact ⟨n, earlier ++ between, first, last, between' ++ later, (List.append_assoc ..).symm,
    List.append_assoc .., hreaches, hpiece⟩

theorem Course.exists_passage (h : Course p events) {n : Occurrence} (hreaches : p.Reaches events n) :
    ∃ past passage rest, events = past ++ passage ++ rest ∧ Passage n passage := by
  obtain ⟨left, tour, right, rfl, htrail, -, -⟩ := h.exists_trail
  obtain ⟨top, htop, hreaches⟩ := hreaches
  have hsub : ∀ e ∈ tour, e ∈ left ++ tour ++ right := fun e he =>
    List.mem_append_left _ (List.mem_append_right _ he)
  obtain ⟨past, passage, rest, rfl, hpassage⟩ := htrail.exists_passage hsub htop hreaches
  exact ⟨left ++ past, passage, rest ++ right, by simp, hpassage⟩

/-- The variables that are reached are all checked. -/
theorem Course.exists_check (h : Course p events) {n : Occurrence} (hreaches : p.Reaches events n)
    (hn : n.isVariable) :
    ∃ past check rest, events = past ++ check ++ rest ∧ VariableCheck n check := by
  obtain ⟨past, passage, rest, hsplit, hpassage⟩ := h.exists_passage hreaches
  cases hpassage with
  | «variable» _ hcheck => exact ⟨past, passage, rest, hsplit, hcheck⟩
  | node hother =>
      rw [hn] at hother
      cases hother

end

end ExtensibleCheck
