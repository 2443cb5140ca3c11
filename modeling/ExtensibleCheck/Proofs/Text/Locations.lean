import ExtensibleCheck.Diagnostic.Compiler
import ExtensibleCheck.Proofs.Text.Lines
import ExtensibleCheck.Syntax.Occurrence

/-! Lines and columns, and the positions that they came from. The point of a position is the only one whose
line begins no later and whose column leads from there to the position, while the next line, if there is one,
begins later. So no two positions have one point, and the points stand in the order of the positions. -/

namespace ExtensibleCheck

namespace Text

/-- Points are ordered by their lines, and within a line by their columns. -/
def Point.Before (a b : Point) : Prop := a.line < b.line ∨ a.line = b.line ∧ a.column < b.column

instance (a b : Point) : Decidable (a.Before b) := inferInstanceAs (Decidable (_ ∨ _))

/-- A position can be found again from its point, which is on the last line that begins no later. -/
structure PointsAt (text : String) (point : Point) (position : Nat) : Prop where
  line : 1 ≤ point.line
  column : 1 ≤ point.column
  found : ∃ start ∈ (lineStarts text)[point.line - 1]?, start + point.column - 1 = position
  last : ∀ next ∈ (lineStarts text)[point.line]?, position < next

/-- What is relied on where lines and characters are counted from zero: a position has a line, from the
beginning of which it is as many characters away as are told, and the next line, if there is one, begins
later. -/
def Decodes (text : String) (decode : Nat → Nat × Nat) : Prop :=
  ∀ position, (∃ start ∈ (lineStarts text)[(decode position).1]?, start + (decode position).2 = position) ∧
    ∀ next ∈ (lineStarts text)[(decode position).1 + 1]?, position < next

variable {text : String} {position position' : Nat} {a b : Point}

/-- In increasing order, those that are no greater than a number stand before all others. -/
theorem exists_append_of_pairwise {starts : List Nat} (h : starts.Pairwise (· < ·)) (position : Nat) :
    ∃ later, starts = starts.filter (· ≤ position) ++ later ∧ ∀ start ∈ later, position < start := by
  induction starts with
  | nil => exact ⟨[], rfl, List.forall_mem_nil _⟩
  | cons start starts ih =>
      obtain ⟨hfirst, hrest⟩ := List.pairwise_cons.mp h
      rcases Nat.lt_or_ge position start with hlt | hle
      · have hnone : (start :: starts).filter (· ≤ position) = [] := by
          refine List.filter_eq_nil_iff.mpr fun next hnext => ?_
          have hahead := lt_of_mem_cons_of_pairwise hlt h hnext
          simpa using hahead
        exact ⟨start :: starts, by rw [hnone, List.nil_append],
          fun next hnext => lt_of_mem_cons_of_pairwise hlt h hnext⟩
      · obtain ⟨later, hstarts, hlater⟩ := ih hrest
        have hkept : (start :: starts).filter (· ≤ position) = start :: starts.filter (· ≤ position) :=
          List.filter_cons_of_pos (decide_eq_true hle)
        exact ⟨later, by rw [hkept, List.cons_append, ← hstarts], hlater⟩

theorem pointsAt_locate (text : String) (position : Nat) :
    PointsAt text (locate text position) position := by
  -- The lines that begin no later are a front of all lines. The last of them is the line of the position, and
  -- there is one, as the first line begins at the beginning.
  obtain ⟨later, hstarts, hlater⟩ := exists_append_of_pairwise (pairwise_lineStarts text) position
  have hzero : 0 ∈ (lineStarts text).filter (· ≤ position) :=
    List.mem_filter.mpr ⟨List.mem_cons_self, decide_eq_true (Nat.zero_le _)⟩
  obtain ⟨front, start, hstarted⟩ :=
    (List.eq_nil_or_concat ((lineStarts text).filter (· ≤ position))).resolve_left (List.ne_nil_of_mem hzero)
  have hle : start ≤ position := by
    have hmem : start ∈ (lineStarts text).filter (· ≤ position) := by simp [hstarted]
    exact of_decide_eq_true (List.mem_filter.mp hmem).2
  have hpoint : locate text position = ⟨front.length + 1, position - start + 1⟩ := by
    simp [locate, hstarted]
  rw [hstarted] at hstarts
  rw [hpoint]
  refine ⟨Nat.le_add_left 1 _, Nat.le_add_left 1 _, ⟨start, ?_, ?_⟩, fun next hnext => ?_⟩
  · rw [hstarts]
    simp
  · show start + (position - start + 1) - 1 = position
    omega
  · refine hlater next (List.mem_of_getElem? (i := 0) ?_)
    rw [hstarts, List.getElem?_append_right (by simp)] at hnext
    simpa using hnext

/-- What is on an earlier line comes earlier. -/
theorem PointsAt.lt_of_line_lt (ha : PointsAt text a position) (hb : PointsAt text b position')
    (hlt : a.line < b.line) : position < position' := by
  obtain ⟨start, hstart, hposition'⟩ := hb.found
  obtain ⟨hlength, hstart⟩ := List.getElem?_eq_some_iff.mp hstart
  have hnext : position < (lineStarts text)[a.line] :=
    ha.last _ (List.getElem?_eq_getElem (Nat.lt_of_le_of_lt (Nat.le_sub_one_of_lt hlt) hlength))
  have hle : (lineStarts text)[a.line] ≤ start := by
    rcases Nat.eq_or_lt_of_le (Nat.le_sub_one_of_lt hlt) with heq | hbetween
    · simp only [heq, hstart, Nat.le_refl]
    · rw [← hstart]
      exact Nat.le_of_lt (List.pairwise_iff_getElem.mp (pairwise_lineStarts text) _ _ _ _ hbetween)
  have hcolumn := hb.column
  omega

theorem PointsAt.lt_iff (ha : PointsAt text a position) (hb : PointsAt text b position') :
    position < position' ↔ a.Before b := by
  rcases Nat.lt_trichotomy a.line b.line with hlt | heq | hgt
  · exact iff_of_true (ha.lt_of_line_lt hb hlt) (Or.inl hlt)
  · obtain ⟨start, hstart, hposition⟩ := ha.found
    obtain ⟨start', hstart', hposition'⟩ := hb.found
    rw [heq] at hstart
    obtain rfl : start = start' := Option.some_inj.mp (hstart.symm.trans hstart')
    have hcolumn := ha.column
    have hcolumn' := hb.column
    rw [Point.Before]
    omega
  · have hlater := hb.lt_of_line_lt ha hgt
    rw [Point.Before]
    omega

/-- A position has one point only. -/
theorem PointsAt.unique (ha : PointsAt text a position) (hb : PointsAt text b position) : a = b := by
  have hab : ¬a.Before b := (not_congr (ha.lt_iff hb)).mp (Nat.lt_irrefl _)
  have hba : ¬b.Before a := (not_congr (hb.lt_iff ha)).mp (Nat.lt_irrefl _)
  rw [Point.Before] at hab hba
  have hline : a.line = b.line := by omega
  have hcolumn : a.column = b.column := by omega
  cases a
  cases b
  cases hline
  cases hcolumn
  rfl

theorem pointsAt_iff : PointsAt text a position ↔ a = locate text position := by
  constructor
  · intro h
    exact h.unique (pointsAt_locate text position)
  · rintro rfl
    exact pointsAt_locate text position

/-- Counted from one, such lines and characters are the points of the positions. -/
theorem decodes_iff {decode : Nat → Nat × Nat} : Decodes text decode ↔
    ∀ position, locate text position = ⟨(decode position).1 + 1, (decode position).2 + 1⟩ := by
  refine forall_congr' fun position => ?_
  rw [eq_comm, ← pointsAt_iff]
  constructor
  · exact fun ⟨hfound, hlast⟩ => ⟨Nat.le_add_left 1 _, Nat.le_add_left 1 _, hfound, hlast⟩
  · exact fun h => ⟨h.found, h.last⟩

theorem locate_before_iff : (locate text position).Before (locate text position') ↔ position < position' :=
  ((pointsAt_locate text position).lt_iff (pointsAt_locate text position')).symm

theorem locate_injective (text : String) : Function.Injective (locate text) := by
  intro position position' h
  obtain ⟨start, hstart, hposition⟩ := (pointsAt_locate text position).found
  obtain ⟨start', hstart', hposition'⟩ := (pointsAt_locate text position').found
  rw [h] at hstart hposition
  obtain rfl : start = start' := Option.some_inj.mp (hstart.symm.trans hstart')
  exact hposition.symm.trans hposition'

/-- Where no line begins, the line goes on. -/
theorem locate_succ_of_notMem (h : position + 1 ∉ lineStarts text) :
    (locate text (position + 1)).line = (locate text position).line := by
  rw [locate, locate]
  refine congrArg List.length (List.filter_congr fun start hstart => ?_)
  have hne : start ≠ position + 1 := fun heq => h (heq ▸ hstart)
  exact decide_eq_decide.mpr (by omega)

/-- No line begins between a carriage return and the line feed that follows. -/
theorem notMem_lineStarts_of_pair (hreturn : (utf16 text)[position]? = some 0x0D)
    (hfeed : (utf16 text)[position + 1]? = some 0x0A) : position + 1 ∉ lineStarts text := by
  rw [mem_lineStarts_iff]
  rintro (hzero | ⟨front, unit, back, hcoded, hlength, -, hpair⟩)
  · cases hzero
  · obtain rfl : position = front.length := Nat.succ.inj hlength.symm
    rw [hcoded, List.getElem?_append_right (Nat.le_refl _), Nat.sub_self] at hreturn
    rw [hcoded, List.getElem?_append_right (Nat.le_add_right _ 1), Nat.add_sub_cancel_left] at hfeed
    exact hpair ⟨Option.some_inj.mp hreturn, by rw [List.head?_eq_getElem?]; exact hfeed⟩

end Text

open Text

theorem Location.ofSpan?_natCast (name text : String) (position : Nat) (length : Int) :
    Location.ofSpan? name text position length =
      .ok ⟨name, (locate text position).line, (locate text position).column, length⟩ :=
  if_neg (Int.not_lt.mpr (Int.natCast_nonneg position))

theorem CompilerDiagnostic.location?_eq_some {d : CompilerDiagnostic} {name text : String} {position : Nat}
    (hfile : d.file = some (name, text)) (hstart : d.start = some position) :
    d.location? = some ⟨name, (locate text position).line, (locate text position).column, d.length.getD 1⟩ := by
  rw [location?, hfile, hstart]
  rfl

/-- **Locations lead back to the positions that they were made from.** A location that is made from a
position of a file, past its end too, or for a finding of the compiler, or for a node, has the line and the
column of the position, and these determine each other. Whatever counts lines and characters from zero as is
relied on comes to the same lines and columns. -/
theorem Location.leads_back (name text : String) :
    (lineStarts text).Pairwise (· < ·) ∧
    (∀ start, start ∈ lineStarts text ↔ start = 0 ∨ EndsLine (utf16 text) start) ∧
    (∀ (position : Nat) (length : Int), Location.ofSpan? name text position length =
      .ok ⟨name, (locate text position).line, (locate text position).column, length⟩) ∧
    (∀ (d : CompilerDiagnostic) (position : Nat), d.file = some (name, text) → d.start = some position →
      d.location? = some ⟨name, (locate text position).line, (locate text position).column, d.length.getD 1⟩) ∧
    (∀ o : Occurrence, Location.ofSpan? o.file.name o.file.text o.node.start o.node.width = .ok o.location) ∧
    (∀ point position, PointsAt text point position ↔ point = locate text position) ∧
    (∀ decode : Nat → Nat × Nat, Decodes text decode ↔
      ∀ position, locate text position = ⟨(decode position).1 + 1, (decode position).2 + 1⟩) ∧
    Function.Injective (locate text) ∧
    (∀ position position', (locate text position).Before (locate text position') ↔ position < position') ∧
    ∀ position : Nat, (utf16 text)[position]? = some 0x0D → (utf16 text)[position + 1]? = some 0x0A →
      (locate text (position + 1)).line = (locate text position).line := by
  refine ⟨pairwise_lineStarts text, mem_lineStarts_iff text, ofSpan?_natCast name text, ?_, ?_, ?_,
    fun _ => decodes_iff, ?_, ?_, ?_⟩
  · intro d position hfile hstart
    exact CompilerDiagnostic.location?_eq_some hfile hstart
  · intro o
    exact ofSpan?_natCast o.file.name o.file.text o.node.start o.node.width
  · intro point position
    exact pointsAt_iff
  · exact locate_injective text
  · intro position position'
    exact locate_before_iff
  · intro position hreturn hfeed
    exact locate_succ_of_notMem (notMem_lineStarts_of_pair hreturn hfeed)

/-- Two breaks, the first of them of two units, behind a character of one unit and one of two. -/
def brokenText : String := "é𝄞\r\nb\u2028"

/-- The line feed of the first break is still on the first line, and past the end is the third. -/
theorem Location.leads_back_brokenText :
    (utf16 brokenText)[3]? = some 0x0D ∧ (utf16 brokenText)[4]? = some 0x0A ∧
      (locate brokenText 4).line = (locate brokenText 3).line ∧
      (locate brokenText 4).Before (locate brokenText 5) ∧
      PointsAt brokenText ⟨3, 3⟩ 9 ∧
      CompilerDiagnostic.location? ⟨.error, .mk "Unexpected." [], some ("a.ts", brokenText), some 9, none⟩ =
        some ⟨"a.ts", 3, 3, 1⟩ := by
  have hreturn : (utf16 brokenText)[3]? = some 0x0D := by decide +kernel
  have hfeed : (utf16 brokenText)[4]? = some 0x0A := by decide +kernel
  have hpast : (⟨3, 3⟩ : Point) = locate brokenText 9 := by decide +kernel
  obtain ⟨-, -, -, hfinding, -, hpoint, -, -, hbefore, hpair⟩ := leads_back "a.ts" brokenText
  refine ⟨hreturn, hfeed, hpair 3 hreturn hfeed, (hbefore 4 5).mpr (by decide), (hpoint _ _).mpr hpast, ?_⟩
  rw [hfinding _ 9 rfl rfl, ← hpast]
  rfl

end ExtensibleCheck
