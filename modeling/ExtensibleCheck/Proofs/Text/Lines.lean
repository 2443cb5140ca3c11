import ExtensibleCheck.Text.Order
import ExtensibleCheck.Text.Position

/-! Where the lines of a text begin, seen from its code units: at the beginning, and behind every unit that
breaks a line, except within a carriage return and the line feed that follows it. Characters that take two
units break no line. -/

namespace ExtensibleCheck.Text

/-- Whether a code unit breaks a line. -/
def breaksLine (unit : Nat) : Bool :=
  unit == 0x0A || unit == 0x0D || unit == 0x2028 || unit == 0x2029

/-- Whether a line ends right before a position. A carriage return does not end it where a line feed follows,
which then does. -/
def EndsLine (coded : List Nat) (position : Nat) : Prop :=
  ∃ front unit back, coded = front ++ unit :: back ∧ front.length + 1 = position ∧ breaksLine unit ∧
    ¬(unit = 0x0D ∧ back.head? = some 0x0A)

section

variable {coded : List Nat} {unit position : Nat}

theorem not_endsLine_nil : ¬EndsLine [] position := by
  rintro ⟨front, unit, back, hcoded, -⟩
  exact absurd hcoded (by simp)

/-- A line ends behind the first unit, or behind a later one. -/
theorem endsLine_cons_iff : EndsLine (unit :: coded) position ↔
    (position = 1 ∧ breaksLine unit ∧ ¬(unit = 0x0D ∧ coded.head? = some 0x0A)) ∨
      ∃ rest, EndsLine coded rest ∧ position = 1 + rest := by
  constructor
  · rintro ⟨front, other, back, hcoded, hlength, hbreaks, hpair⟩
    cases front with
    | nil =>
        obtain ⟨rfl, rfl⟩ := List.cons.inj hcoded
        exact Or.inl ⟨hlength.symm, hbreaks, hpair⟩
    | cons first front =>
        obtain ⟨rfl, rfl⟩ := List.cons.inj hcoded
        refine Or.inr ⟨front.length + 1, ⟨front, other, back, rfl, rfl, hbreaks, hpair⟩, ?_⟩
        rw [← hlength, List.length_cons, Nat.add_comm 1]
  · rintro (⟨rfl, hbreaks, hpair⟩ | ⟨rest, ⟨front, other, back, rfl, rfl, hbreaks, hpair⟩, rfl⟩)
    · exact ⟨[], unit, coded, rfl, rfl, hbreaks, hpair⟩
    · exact ⟨unit :: front, other, back, rfl, Nat.add_comm .., hbreaks, hpair⟩

/-- Where lines end in a text whose beginning is known, seen from a position before it. -/
theorem endsLine_shift {coded' : List Nat} {here : Prop} {size first : Nat}
    (h : ∀ rest, EndsLine coded rest ↔
      (here ∧ rest = size) ∨ ∃ later, EndsLine coded' later ∧ rest = size + later) :
    (∃ rest, EndsLine coded rest ∧ position = first + rest) ↔
      (here ∧ position = first + size) ∨
        ∃ later, EndsLine coded' later ∧ position = first + size + later := by
  constructor
  · rintro ⟨rest, hrest, rfl⟩
    rcases (h rest).mp hrest with ⟨hhere, rfl⟩ | ⟨later, hlater, rfl⟩
    · exact Or.inl ⟨hhere, rfl⟩
    · exact Or.inr ⟨later, hlater, (Nat.add_assoc ..).symm⟩
  · rintro (⟨hhere, rfl⟩ | ⟨later, hlater, rfl⟩)
    · exact ⟨size, (h size).mpr (Or.inl ⟨hhere, rfl⟩), rfl⟩
    · exact ⟨size + later, (h _).mpr (Or.inr ⟨later, hlater, rfl⟩), Nat.add_assoc ..⟩

theorem endsLine_cons_of_not_breaksLine (h : breaksLine unit = false) :
    EndsLine (unit :: coded) position ↔ ∃ rest, EndsLine coded rest ∧ position = 1 + rest := by
  rw [endsLine_cons_iff, h]
  exact or_iff_right fun hfirst => Bool.false_ne_true hfirst.2.1

/-- The halves of a pair of units lie where no unit breaks a line. -/
theorem breaksLine_of_le (h : 0xD800 ≤ unit) : breaksLine unit = false := by
  simp only [breaksLine, Bool.or_eq_false_iff, beq_eq_false_iff_ne]
  omega

end

section

variable {c : Char} {text : List Char} {position : Nat}

theorem breaksLine_toNat (c : Char) : breaksLine c.toNat = isLineBreak c := by
  have hsame (d : Char) : (c.toNat == d.toNat) = (c == d) := by
    rw [Bool.eq_iff_iff, beq_iff_eq, beq_iff_eq, Char.toNat_inj]
  rw [isLineBreak, ← hsame '\n', ← hsame '\r', ← hsame '\u2028', ← hsame '\u2029']
  rfl

theorem codeUnits_of_lt (h : c.toNat < 0x10000) : codeUnits c = [c.toNat] := if_pos h

theorem exists_codeUnits_of_le (h : 0x10000 ≤ c.toNat) :
    ∃ high low, codeUnits c = [high, low] ∧ 0xD800 ≤ high ∧ 0xD800 ≤ low := by
  refine ⟨_, _, if_neg (Nat.not_lt.mpr h), Nat.le_add_right _ _, ?_⟩
  exact Nat.le_trans (by decide) (Nat.le_add_right 0xDC00 _)

/-- A text begins with the unit of a line feed only if it begins with a line feed. -/
theorem head?_codeUnits_eq_iff :
    (text.flatMap codeUnits).head? = some 0x0A ↔ ∃ rest, text = '\n' :: rest := by
  cases text with
  | nil => simp
  | cons c rest =>
      have hfeed : (∃ rest', c :: rest = '\n' :: rest') ↔ c.toNat = 0x0A := by
        rw [show 0x0A = '\n'.toNat from rfl, Char.toNat_inj]
        simp
      rw [hfeed, List.flatMap_cons]
      rcases Nat.lt_or_ge c.toNat 0x10000 with h | h
      · rw [codeUnits_of_lt h, List.singleton_append, List.head?_cons, Option.some_inj]
      · obtain ⟨high, low, hunits, hhigh, -⟩ := exists_codeUnits_of_le h
        rw [hunits, List.cons_append, List.head?_cons, Option.some_inj]
        omega

/-- Where a carriage return and a line feed stand together, only the line feed ends a line. -/
theorem endsLine_pair_iff : EndsLine (0x0D :: 0x0A :: text.flatMap codeUnits) position ↔
    (isLineBreak '\n' ∧ position = 2) ∨
      ∃ rest, EndsLine (text.flatMap codeUnits) rest ∧ position = 2 + rest := by
  rw [endsLine_cons_iff]
  constructor
  · rintro (⟨-, -, hpair⟩ | ⟨_, hlater, rfl⟩)
    · exact absurd ⟨rfl, rfl⟩ hpair
    · rcases endsLine_cons_iff.mp hlater with ⟨rfl, -, -⟩ | ⟨rest, hrest, rfl⟩
      · exact Or.inl ⟨rfl, rfl⟩
      · exact Or.inr ⟨rest, hrest, (Nat.add_assoc 1 1 rest).symm⟩
  · have hfeed : breaksLine 0x0A ∧ ¬(0x0A = 0x0D ∧ (text.flatMap codeUnits).head? = some 0x0A) := by
      simp [breaksLine]
    rintro (⟨-, rfl⟩ | ⟨rest, hrest, rfl⟩)
    · exact Or.inr ⟨1, endsLine_cons_iff.mpr (Or.inl ⟨rfl, hfeed⟩), rfl⟩
    · exact Or.inr ⟨1 + rest, endsLine_cons_iff.mpr (Or.inr ⟨rest, hrest, rfl⟩), Nat.add_assoc 1 1 rest⟩

/-- Any other character ends a line if it is a break, and is as long as it has units. -/
theorem endsLine_codeUnits_append_iff (hpair : ∀ rest, c = '\r' → text ≠ '\n' :: rest) :
    EndsLine (codeUnits c ++ text.flatMap codeUnits) position ↔
      (isLineBreak c ∧ position = units c) ∨
        ∃ rest, EndsLine (text.flatMap codeUnits) rest ∧ position = units c + rest := by
  rcases Nat.lt_or_ge c.toNat 0x10000 with h | h
  · have halone : ¬(c.toNat = 0x0D ∧ (text.flatMap codeUnits).head? = some 0x0A) := by
      rintro ⟨hc, hhead⟩
      obtain ⟨rest, hrest⟩ := head?_codeUnits_eq_iff.mp hhead
      exact hpair rest (Char.toNat_inj.mp hc) hrest
    have hunits : units c = 1 := if_pos h
    rw [codeUnits_of_lt h, hunits, List.singleton_append, endsLine_cons_iff, breaksLine_toNat]
    exact or_congr_left ⟨fun hfirst => ⟨hfirst.2.1, hfirst.1⟩, fun hfirst => ⟨hfirst.2, hfirst.1, halone⟩⟩
  · have hbreak : isLineBreak c = false := by
      rw [← breaksLine_toNat]
      exact breaksLine_of_le (Nat.le_trans (by decide) h)
    have hunits : units c = 2 := if_neg (Nat.not_lt.mpr h)
    obtain ⟨high, low, hcoded, hhigh, hlow⟩ := exists_codeUnits_of_le h
    rw [hcoded, hunits, hbreak, List.cons_append, List.singleton_append,
      endsLine_cons_of_not_breaksLine (breaksLine_of_le hhigh)]
    simp only [endsLine_cons_of_not_breaksLine (breaksLine_of_le hlow)]
    constructor
    · rintro ⟨_, ⟨rest, hrest, rfl⟩, rfl⟩
      exact Or.inr ⟨rest, hrest, (Nat.add_assoc 1 1 rest).symm⟩
    · rintro (⟨hfalse, -⟩ | ⟨rest, hrest, rfl⟩)
      · cases hfalse
      · exact ⟨1 + rest, ⟨rest, hrest, rfl⟩, Nat.add_assoc 1 1 rest⟩

/-- The line starts behind a character that does not begin a pair of breaks. -/
theorem lineStartsFrom_cons (hpair : ∀ rest, c = '\r' → text ≠ '\n' :: rest) (first : Nat) :
    lineStartsFrom (c :: text) first =
      if isLineBreak c then (first + units c) :: lineStartsFrom text (first + units c)
      else lineStartsFrom text (first + units c) := by
  rw [lineStartsFrom]
  exact hpair

theorem mem_lineStartsFrom_iff (text : List Char) (first position : Nat) :
    position ∈ lineStartsFrom text first ↔
      ∃ rest, EndsLine (text.flatMap codeUnits) rest ∧ position = first + rest := by
  -- Along the recursion of the starts, which takes a carriage return together with a line feed behind it. So
  -- no later character has to know what stood before it.
  induction text, first using lineStartsFrom.induct with
  | case1 first =>
      refine iff_of_false List.not_mem_nil ?_
      rintro ⟨rest, hrest, -⟩
      exact not_endsLine_nil hrest
  | case2 text first ih =>
      rw [lineStartsFrom, List.mem_cons, ih]
      refine Iff.trans (or_congr_left ?_) (endsLine_shift fun rest => endsLine_pair_iff).symm
      exact (and_iff_right rfl).symm
  | case3 c text first hpair next hbreak ih =>
      rw [lineStartsFrom_cons hpair, if_pos hbreak, List.mem_cons, ih]
      refine Iff.trans (or_congr_left ?_) (endsLine_shift fun rest => endsLine_codeUnits_append_iff hpair).symm
      exact (and_iff_right hbreak).symm
  | case4 c text first hpair next hbreak ih =>
      rw [lineStartsFrom_cons hpair, if_neg hbreak, ih]
      refine Iff.trans ?_ (endsLine_shift fun rest => endsLine_codeUnits_append_iff hpair).symm
      exact (or_iff_right fun h => hbreak h.1).symm

/-- The lines begin at the beginning and where a line ends, in terms of the units of the text. -/
theorem mem_lineStarts_iff (text : String) (position : Nat) :
    position ∈ lineStarts text ↔ position = 0 ∨ EndsLine (utf16 text) position := by
  rw [lineStarts, List.mem_cons, mem_lineStartsFrom_iff]
  refine or_congr_right ⟨?_, fun h => ⟨position, h, (Nat.zero_add _).symm⟩⟩
  rintro ⟨rest, hrest, rfl⟩
  rwa [Nat.zero_add]

theorem units_pos (c : Char) : 0 < units c := by
  rw [units]
  split <;> decide

theorem lt_of_mem_cons_of_pairwise {first next start : Nat} {starts : List Nat} (hlt : first < next)
    (h : (next :: starts).Pairwise (· < ·)) (hstart : start ∈ next :: starts) : first < start := by
  rcases List.mem_cons.mp hstart with rfl | hstart
  · exact hlt
  · exact Nat.lt_trans hlt (List.rel_of_pairwise_cons h hstart)

/-- The line starts behind a position are increasing, from the position on. -/
theorem pairwise_lineStartsFrom (text : List Char) (first : Nat) :
    (first :: lineStartsFrom text first).Pairwise (· < ·) := by
  induction text, first using lineStartsFrom.induct with
  | case1 first => exact List.pairwise_singleton _ _
  | case2 text first ih =>
      rw [lineStartsFrom]
      exact List.pairwise_cons.mpr ⟨fun start => lt_of_mem_cons_of_pairwise (by omega) ih, ih⟩
  | case3 c text first hpair next hbreak ih =>
      have hlt : first < first + units c := Nat.lt_add_of_pos_right (units_pos c)
      rw [lineStartsFrom_cons hpair, if_pos hbreak]
      exact List.pairwise_cons.mpr ⟨fun start => lt_of_mem_cons_of_pairwise hlt ih, ih⟩
  | case4 c text first hpair next hbreak ih =>
      have hlt : first < first + units c := Nat.lt_add_of_pos_right (units_pos c)
      rw [lineStartsFrom_cons hpair, if_neg hbreak]
      refine List.pairwise_cons.mpr ⟨fun start hstart => ?_, (List.pairwise_cons.mp ih).2⟩
      exact lt_of_mem_cons_of_pairwise hlt ih (List.mem_cons_of_mem _ hstart)

theorem pairwise_lineStarts (text : String) : (lineStarts text).Pairwise (· < ·) :=
  pairwise_lineStartsFrom text.toList 0

end

end ExtensibleCheck.Text
