import ExtensibleCheck.Proofs.Walk.Opinions
import ExtensibleCheck.Proofs.Walk.Resolution
import ExtensibleCheck.Proofs.Walk.Room
import ExtensibleCheck.Proofs.Walk.Typing
import ExtensibleCheck.Proofs.Walk.Verdict

/-! The files of a program. If all that the extensions do is to answer, then it makes no difference
whether files are checked together or each of them alone. What is found, stored and selected in a file is
the same, and it follows what was found, stored and selected in the files before it. -/

namespace ExtensibleCheck

open Run Session SessionState

/-- Where each part of a map concerns a file of its own, so does each entry. -/
theorem OrderedMap.exists_file_of_mem_keys {α : Type} {m : OrderedMap NodeId α}
    {part : SourceFile → OrderedMap NodeId α} {files : List SourceFile}
    (hentries : m.entries = files.flatMap fun file => (part file).entries)
    (hpart : ∀ file, ∀ id ∈ (part file).keys, id.file = file.number) {id : NodeId} (hid : id ∈ m.keys) :
    id.file ∈ files.map (·.number) := by
  obtain ⟨entry, hentry, rfl⟩ := List.mem_map.mp hid
  rw [hentries] at hentry
  obtain ⟨file, hfile, hmem⟩ := List.mem_flatMap.mp hentry
  rw [hpart file entry.1 (List.mem_map_of_mem hmem)]
  exact List.mem_map_of_mem hfile

namespace SessionState

variable {ι μ : Type}

/-- What a session has found, stored and selected is what some others have, one after the other. -/
structure Joins (s : SessionState ι μ) (parts : List (SessionState ι μ)) : Prop where
  findings : s.findings.diagnostics = parts.flatMap (·.findings.diagnostics)
  stored : s.stored.entries = parts.flatMap (·.stored.entries)
  targets : s.targets.entries = parts.flatMap (·.targets.entries)

variable {s t : SessionState ι μ} {parts parts' : List (SessionState ι μ)}

theorem Joins.of_eq (h : s.Joins parts) (hfindings : t.findings = s.findings)
    (hstored : t.stored = s.stored) (htargets : t.targets = s.targets) : t.Joins parts := by
  refine ⟨?_, ?_, ?_⟩
  · rw [hfindings, h.findings]
  · rw [hstored, h.stored]
  · rw [htargets, h.targets]

/-- The others may be replaced by some that have the same. -/
theorem Joins.congr {γ : Type} {xs : List γ} {f g : γ → SessionState ι μ} (h : s.Joins (xs.map f))
    (hg : ∀ x ∈ xs, (g x).Joins [f x]) : s.Joins (xs.map g) := by
  have hsame {β : Type} (part : SessionState ι μ → List β)
      (hpart : ∀ x ∈ xs, part (g x) = [f x].flatMap part) :
      (xs.map f).flatMap part = (xs.map g).flatMap part := by
    rw [List.flatMap_map, List.flatMap_map]
    refine List.flatMap_congr fun x hx => ?_
    rw [hpart x hx, List.flatMap_singleton]
  refine ⟨?_, ?_, ?_⟩
  · rw [h.findings, hsame (·.findings.diagnostics) fun x hx => (hg x hx).findings]
  · rw [h.stored, hsame (·.stored.entries) fun x hx => (hg x hx).stored]
  · rw [h.targets, hsame (·.targets.entries) fun x hx => (hg x hx).targets]

/-- The verdict is positive if and only if it is so for all the others. -/
theorem Joins.isOk_verdict_iff (h : s.Joins parts) (hs : s.Kept) (hparts : ∀ part ∈ parts, part.Kept) :
    s.verdict.isOk ↔ ∀ part ∈ parts, part.verdict.isOk := by
  rw [hs.isOk_verdict_iff, ← hs.found, h.findings, List.flatMap_eq_nil_iff]
  refine forall₂_congr fun part hpart => ?_
  rw [(hparts part hpart).isOk_verdict_iff, (hparts part hpart).found]

/-- A session that is apart from one of the others comes after those before. -/
theorem Joins.append {number : Nat} (h : s.Joins parts) {t' : SessionState ι μ}
    (hapart : Apart number s t t') : t.Joins (parts ++ [t']) := by
  refine ⟨?_, ?_, ?_⟩
  · rw [hapart.findings, h.findings, List.flatMap_append, List.flatMap_singleton]
  · rw [hapart.stored.entries, h.stored, List.flatMap_append, List.flatMap_singleton]
  · rw [hapart.targets.entries, h.targets, List.flatMap_append, List.flatMap_singleton]

/-- Nothing was found, stored or selected so far. -/
structure IsBlank (a : SessionState ι μ) : Prop where
  findings : a.findings.diagnostics = []
  stored : a.stored = ∅
  targets : a.targets = ∅

theorem IsBlank.joins {a : SessionState ι μ} (h : a.IsBlank) : a.Joins [] :=
  ⟨h.findings, by rw [h.stored]; rfl, by rw [h.targets]; rfl⟩

end SessionState

namespace Checker

variable {ι μ : Type} [DecidableEq ι]

/-- What is left behind when files are visited is what each visit leaves behind in a session that begins
with `a`. -/
structure Amounts (c : Checker ι μ) (a : SessionState ι μ) (files : List SourceFile)
    (s : SessionState ι μ) : Prop extends
    s.Joins (files.map fun file => (c.visitFile file).after a) where
  registry : s.registry = a.registry

namespace OnlyAnswers

variable {c : Checker ι μ} {answers : Answers ι Occurrence CheckedType} (h : c.OnlyAnswers answers)
  {a s : SessionState ι μ} (ha : a.IsBlank)

include h ha

/-- All that a visit leaves behind concerns the file. -/
theorem own_visitFile (file : SourceFile) :
    Apart file.number a ((c.visitFile file).after a) ((c.visitFile file).after a) := by
  refine (h.visitFile_apart file ⟨rfl, ?_, ?_, ?_⟩).after
  · rw [ha.stored]
    exact ⟨rfl, List.forall_mem_nil _, List.forall_mem_nil _⟩
  · rw [ha.targets]
    exact ⟨rfl, List.forall_mem_nil _, List.forall_mem_nil _⟩
  · rw [ha.findings, List.append_nil]

variable {p : Program} (hroom : c.HasRoom p) (hroomy : c.Roomy a.registry)

include hroom hroomy

/-- After some files another one is visited as if it were the first. -/
theorem visitFile_amounts {files : List SourceFile} (hs : c.Amounts a files s) {file : SourceFile}
    (hfile : file ∈ p.files) (hnew : file.number ∉ files.map (·.number)) :
    ∃ t, c.visitFile file s = .ok () t ∧ c.Amounts a (files ++ [file]) t := by
  have hstored :
      s.stored.entries = files.flatMap fun file => ((c.visitFile file).after a).stored.entries := by
    rw [hs.stored, List.flatMap_map]
  have htargets :
      s.targets.entries = files.flatMap fun file => ((c.visitFile file).after a).targets.entries := by
    rw [hs.targets, List.flatMap_map]
  have hapart : Apart file.number s s a := by
    refine ⟨hs.registry, ?_, ?_, ?_⟩
    · rw [ha.stored]
      refine ⟨(List.append_nil _).symm, fun id hid hfile => hnew ?_, List.forall_mem_nil _⟩
      exact hfile ▸ OrderedMap.exists_file_of_mem_keys hstored
        (fun file => (h.own_visitFile ha file).stored.own) hid
    · rw [ha.targets]
      refine ⟨(List.append_nil _).symm, fun id hid hfile => hnew ?_, List.forall_mem_nil _⟩
      exact hfile ▸ OrderedMap.exists_file_of_mem_keys htargets
        (fun file => (h.own_visitFile ha file).targets.own) hid
    · rw [ha.findings, List.append_nil]
  have hafter := (h.visitFile_apart file hapart).after
  obtain ⟨_, t, hrun, ht⟩ := h.settles_visitFile hroom hfile s (by rwa [hs.registry])
  rw [after_of_ok hrun] at hafter
  refine ⟨t, hrun, { toJoins := ?_, registry := ht.trans hs.registry }⟩
  rw [List.map_append]
  exact hs.toJoins.append hafter

/-- So are further files, one after the other. -/
theorem visitFiles_amounts {files more : List SourceFile} (hs : c.Amounts a files s)
    (hmore : more ⊆ p.files) (hnodup : ((files ++ more).map (·.number)).Nodup) :
    ∃ t, more.forM c.visitFile s = .ok () t ∧ c.Amounts a (files ++ more) t := by
  induction more generalizing files s with
  | nil => exact ⟨s, rfl, by rwa [List.append_nil]⟩
  | cons file more ih =>
      obtain ⟨hfile, hrest⟩ := List.cons_subset.mp hmore
      have hnew : file.number ∉ files.map (·.number) := by
        intro hold
        rw [List.map_append, List.map_cons] at hnodup
        exact (List.nodup_append.mp hnodup).2.2 _ hold _ List.mem_cons_self rfl
      obtain ⟨t, hrun, ht⟩ := h.visitFile_amounts ha hroom hroomy hs hfile hnew
      have hsplit : files ++ file :: more = files ++ [file] ++ more := by
        rw [List.append_assoc, List.singleton_append]
      rw [hsplit] at hnodup ⊢
      obtain ⟨u, hothers, hu⟩ := ih ht hrest hnodup
      exact ⟨u, (bind_of_ok hrun).trans hothers, hu⟩

end OnlyAnswers

/-- What is left of the check when only the files are left to be visited. -/
def visitAll (c : Checker ι μ) (files : List SourceFile) : Session ι μ Verdict := do
  files.forM c.visitFile
  c.raise (.notify .finish)
  return (← get).verdict

namespace OnlyAnswers

variable {c : Checker ι μ} {answers : Answers ι Occurrence CheckedType} (h : c.OnlyAnswers answers)

include h

/-- Whatever the program, all checks begin alike. -/
theorem check_begins (hglobals : c.extensions.length ≤ c.limit) (memory : μ) :
    ∃ a : SessionState ι μ, a.IsBlank ∧ c.Roomy a.registry ∧
      ∀ p, c.check p { memory } = c.visitAll p.files a := by
  obtain ⟨es, hextensions⟩ := h.extensions
  obtain ⟨t, hcreate, ht⟩ := createAll_done es ({ memory } : SessionState ι μ)
  have hstart : c.start { memory } = .ok () t := by
    rw [start, hextensions]
    exact hcreate
  have hroomy : c.Roomy t.registry := by
    rw [ht]
    refine ⟨?_, hglobals⟩
    rw [hextensions, List.length_map]
    exact List.length_map some
  obtain ⟨_, a, hsetup, hsame⟩ := h.raise_of_roomy hroomy (.notify .setup)
  refine ⟨a, ?_, ?_, fun p => (bind_of_ok hstart).trans (bind_of_ok hsetup)⟩
  · rw [hsame, ht]
    exact ⟨rfl, rfl, rfl⟩
  · rw [hsame]
    exact hroomy

section

variable {memory : μ} {a : SessionState ι μ} (ha : a.IsBlank) (hroomy : c.Roomy a.registry)
  (hbegins : ∀ p, c.check p { memory } = c.visitAll p.files a) {p : Program} (hroom : c.HasRoom p)
  (hnumbers : (p.files.map (·.number)).Nodup)

include ha hroomy hroom hbegins hnumbers

/-- A check comes to what the visits to its files come to. -/
theorem check_joins_visits :
    let s := (c.check p).after { memory }
    c.check p { memory } = .ok s.verdict s ∧
      s.Joins (p.files.map fun file => (c.visitFile file).after a) := by
  intro s
  have hnone : c.Amounts a [] a := { ha.joins with registry := rfl }
  obtain ⟨t, hvisits, ht⟩ := h.visitFiles_amounts ha hroom hroomy hnone (List.Subset.refl _) hnumbers
  obtain ⟨_, u, hend, hsame⟩ := h.raise_of_roomy (by rwa [ht.registry]) (.notify .finish)
  have hcheck : c.check p { memory } = .ok u.verdict u :=
    (hbegins p).trans ((bind_of_ok hvisits).trans (bind_of_ok hend))
  have hs : s = u := after_of_ok hcheck
  rw [hs]
  exact ⟨hcheck, ht.toJoins.of_eq (by rw [hsame]) (by rw [hsame]) (by rw [hsame])⟩

/-- What each visit comes to is also what a check of the file alone comes to. -/
theorem check_joins_checks :
    let s := (c.check p).after { memory }
    let alone file := (c.check ⟨[file]⟩).after { memory }
    s.Joins (p.files.map alone) ∧ (s.verdict.isOk ↔ ∀ file ∈ p.files, (alone file).verdict.isOk) := by
  intro s alone
  have hone (file : SourceFile) (hfile : file ∈ p.files) :
      (alone file).Joins [(c.visitFile file).after a] := by
    have hsingle : ([file].map (·.number)).Nodup := List.nodup_singleton file.number
    exact (h.check_joins_visits ha hroomy hbegins (hroom.alone hfile) hsingle).2
  have hjoins : s.Joins (p.files.map alone) :=
    (h.check_joins_visits ha hroomy hbegins hroom hnumbers).2.congr hone
  have hkept (p : Program) : ((c.check p).after { memory }).Kept :=
    Changes.kept ((c.gradual_check p).state { memory })
  refine ⟨hjoins, ?_⟩
  rw [hjoins.isOk_verdict_iff (hkept _) fun part hpart => ?_]
  · exact List.forall_mem_map
  · obtain ⟨file, -, rfl⟩ := List.mem_map.mp hpart
    exact hkept _

end

end OnlyAnswers

/-- Extensions and a provider that do nothing but answer, by what they are asked alone, and room for all of
them. If a program is checked with them, what is found, what is stored and what is selected are what checks
of each of its files alone find, store and select, one file after the other, and entries for different files
have different keys. The verdict is positive if and only if it is for each file alone. In another order of
the files the same holds, with the parts in that order. All of the checks come to their end. Room there is as
soon as the limit is large enough. -/
theorem check_by_files {c : Checker ι μ} {answers : Answers ι Occurrence CheckedType}
    (h : c.OnlyAnswers answers) (p : Program) (hroom : c.HasRoom p)
    (hnumbers : (p.files.map (·.number)).Nodup) (memory : μ) :
    let alone file := (c.check ⟨[file]⟩).after { memory }
    (∀ files, files.Perm p.files →
      let s := (c.check ⟨files⟩).after { memory }
      c.check ⟨files⟩ { memory } = .ok s.verdict s ∧ s.Joins (files.map alone) ∧
        (s.verdict.isOk ↔ ∀ file ∈ p.files, (alone file).verdict.isOk)) ∧
    (∃ enough, ∀ limit, enough ≤ limit → ({ c with limit } : Checker ι μ).HasRoom p) ∧
    ∀ file ∈ p.files, c.check ⟨[file]⟩ { memory } = .ok (alone file).verdict (alone file) ∧
      (∀ id ∈ (alone file).stored.keys, id.file = file.number) ∧
      ∀ id ∈ (alone file).targets.keys, id.file = file.number := by
  intro alone
  obtain ⟨a, ha, hroomy, hbegins⟩ := h.check_begins hroom.globals memory
  refine ⟨fun files hperm => ?_, exists_hasRoom c p, fun file hfile => ?_⟩
  · have hothers : c.HasRoom ⟨files⟩ := hroom.of_subset hperm.subset
    have hnodup : (files.map (·.number)).Nodup := (hperm.map _).nodup_iff.mpr hnumbers
    obtain ⟨hjoins, hverdict⟩ := h.check_joins_checks ha hroomy hbegins hothers hnodup
    refine ⟨(h.check_joins_visits ha hroomy hbegins hothers hnodup).1, hjoins, hverdict.trans ?_⟩
    exact forall_congr' fun file => imp_congr_left hperm.mem_iff
  · have hsingle : ([file].map (·.number)).Nodup := List.nodup_singleton file.number
    obtain ⟨hrun, hjoins⟩ := h.check_joins_visits ha hroomy hbegins (hroom.alone hfile) hsingle
    have hown := h.own_visitFile ha file
    refine ⟨hrun, fun id hid => hown.stored.own id ?_, fun id hid => hown.targets.own id ?_⟩
    · rwa [OrderedMap.keys, hjoins.stored, List.map_singleton, List.flatMap_singleton] at hid
    · rwa [OrderedMap.keys, hjoins.targets, List.map_singleton, List.flatMap_singleton] at hid

end Checker

/-- What an extension answers that comes up with two methods and prefers the first. -/
def preferringFirst : Answers Unit Occurrence CheckedType
  | (), .contribute missing => [{ name := missing.name }, { name := missing.name ++ "All" }]
  | (), .narrow candidates _ => candidates.take 1
  | (), call => call.neutral

/-- The extension that prefers the first of two methods, once for all and once more in every closure. -/
def prefersFirstTwice : Checker Unit Unit :=
  { prefersFirst with localExtensions := some fun _ => .done [()], limit := 2 }

theorem prefersFirstTwice_onlyAnswers : prefersFirstTwice.OnlyAnswers preferringFirst where
  extensions := ⟨[()], rfl⟩
  behaviour
    | (), .ask _ | (), .narrow _ _ | (), .contribute _ | (), .notify _ => rfl
  provider := by
    intro provide hprovide closure
    obtain rfl := Option.some.inj hprovide
    exact ⟨[()], rfl⟩

theorem prefersFirstTwice_hasRoom (p : Program) : prefersFirstTwice.HasRoom p :=
  ⟨Nat.le_succ 1, fun _ _ _ _ => Nat.le_refl 2⟩

/-- Four files: in one of them a member is unknown to the compiler, in another one two names are, in the
next one it resolves a call, and in the last one there are closures. -/
def fourFiles : Program :=
  let numbered (number : Nat) (file : SourceFile) : SourceFile := { file with number }
  ⟨unknownMember.files ++ strayNames.files.map (numbered 1) ++ resolvedCall.files.map (numbered 2) ++
    nestedArrows.files.map (numbered 3)⟩

/-- The names are found to be mistakes, and methods are selected in two of the other files. -/
theorem check_by_files_fourFiles :
    let s := (prefersFirstTwice.check fourFiles).after { memory := () }
    let alone file := (prefersFirstTwice.check ⟨[file]⟩).after { memory := () }
    prefersFirstTwice.OnlyAnswers preferringFirst ∧ prefersFirstTwice.HasRoom fourFiles ∧
      (fourFiles.files.map (·.number)).Nodup ∧ s.Joins (fourFiles.files.map alone) ∧
        s.verdict.isOk = false ∧ s.findings.diagnostics.length = 2 ∧
          s.targets.keys.map (·.file) = [0, 2] ∧ s.stored.keys.map (·.file) = [2] := by
  have hroom := prefersFirstTwice_hasRoom fourFiles
  have hnumbers : (fourFiles.files.map (·.number)).Nodup := by decide
  obtain ⟨hall, -⟩ :=
    Checker.check_by_files prefersFirstTwice_onlyAnswers fourFiles hroom hnumbers ()
  obtain ⟨-, hjoins, -⟩ := hall fourFiles.files (List.Perm.refl _)
  exact ⟨prefersFirstTwice_onlyAnswers, hroom, hnumbers, hjoins, by decide +kernel, by decide +kernel,
    by decide +kernel, by decide +kernel⟩

end ExtensibleCheck
