import Mathlib.Data.List.Forall2
import RecordFormat.Text.Blank
import RecordFormat.Text.Name

/-!
# Words

What the checks of names, the removal of blanks and the lowering of case are worth, character by
character. A name is a first character of its class followed by letters, digits and underscores
(`isTableName_iff`, `isFieldName_iff`), a text has one core that blanks surround (`strips_iff`), and
it spells one word, that core in small letters (`spelling_iff`).
-/

namespace RecordFormat.Text

/-! ## Names -/

def Capital (c : Char) : Prop := 'A' ≤ c ∧ c ≤ 'Z'

def Small (c : Char) : Prop := 'a' ≤ c ∧ c ≤ 'z'

def Letter (c : Char) : Prop := Capital c ∨ Small c

def Digit (c : Char) : Prop := '0' ≤ c ∧ c ≤ '9'

/-- A character of the class `first`, then letters, digits and underscores. -/
def Begins (first : Char → Prop) (cs : List Char) : Prop :=
  ∃ c rest, cs = c :: rest ∧ first c ∧ ∀ d ∈ rest, Letter d ∨ Digit d ∨ d = '_'

/-- How tables and schemas may be called. -/
def TableName (name : String) : Prop := Begins Letter name.toList

/-- How fields may be called. -/
def FieldName (name : String) : Prop := Begins Small name.toList

theorem isLower_iff {c : Char} : c.isLower = true ↔ Small c := by
  refine Bool.and_eq_true_iff.trans (and_congr ?_ ?_)
  · exact ⟨of_decide_eq_true, decide_eq_true⟩
  · exact ⟨of_decide_eq_true, decide_eq_true⟩

theorem isUpper_iff {c : Char} : c.isUpper = true ↔ Capital c := by
  show decide ('A'.val ≤ c.val ∧ c.val ≤ 'Z'.val) = true ↔ _
  exact decide_eq_true_iff

theorem isAlpha_iff {c : Char} : c.isAlpha = true ↔ Letter c :=
  Bool.or_eq_true_iff.trans (or_congr isUpper_iff isLower_iff)

theorem isDigit_iff {c : Char} : c.isDigit = true ↔ Digit c := by
  refine Bool.and_eq_true_iff.trans (and_congr ?_ ?_)
  · exact ⟨of_decide_eq_true, decide_eq_true⟩
  · exact ⟨of_decide_eq_true, decide_eq_true⟩

theorem isNameTail_iff {c : Char} : isNameTail c = true ↔ Letter c ∨ Digit c ∨ c = '_' := by
  rw [isNameTail, Bool.or_eq_true, beq_iff_eq, ← or_assoc]
  exact or_congr (Bool.or_eq_true_iff.trans (or_congr isAlpha_iff isDigit_iff)) .rfl

theorem isNameFrom_iff {test : Char → Bool} {first : Char → Prop}
    (same : ∀ c, test c = true ↔ first c) {cs : List Char} :
    isNameFrom test cs = true ↔ Begins first cs := by
  cases cs with
  | nil => simp [isNameFrom, Begins]
  | cons c rest =>
      rw [isNameFrom, Bool.and_eq_true, List.all_eq_true, same]
      simp only [isNameTail_iff]
      constructor
      · rintro ⟨begins, tail⟩
        exact ⟨c, rest, rfl, begins, tail⟩
      · rintro ⟨_, _, ⟨⟩, begins, tail⟩
        exact ⟨begins, tail⟩

theorem isTableName_iff {name : String} : isTableName name = true ↔ TableName name :=
  isNameFrom_iff fun _ => isAlpha_iff

theorem isFieldName_iff {name : String} : isFieldName name = true ↔ FieldName name :=
  isNameFrom_iff fun _ => isLower_iff

theorem not_isTableName_iff {name : String} : (!isTableName name) = true ↔ ¬ TableName name := by
  rw [← isTableName_iff, Bool.not_eq_true', Bool.not_eq_true]

theorem not_isFieldName_iff {name : String} : (!isFieldName name) = true ↔ ¬ FieldName name := by
  rw [← isFieldName_iff, Bool.not_eq_true', Bool.not_eq_true]

/-! ## Surrounding blanks -/

/-- The text is its core with blanks around it; the core has none at its ends. -/
def Strips (cs core : List Char) : Prop :=
  ∃ before after, cs = before ++ core ++ after ∧
    (∀ c ∈ before ++ after, isBlank c = true) ∧
    (∀ c ∈ core.head?, isBlank c = false) ∧ ∀ c ∈ core.getLast?, isBlank c = false

/-- Blanks in front of a text go, up to the first other character. -/
theorem dropWhile_isBlank {before rest : List Char} (blank : ∀ c ∈ before, isBlank c = true)
    (first : ∀ c ∈ rest.head?, isBlank c = false) : (before ++ rest).dropWhile isBlank = rest := by
  rw [List.dropWhile_append_of_pos blank]
  cases rest with
  | nil => rfl
  | cons c rest => exact List.dropWhile_cons_of_neg (by simp [first c rfl])

theorem head?_dropWhile_isBlank (cs : List Char) :
    ∀ c ∈ (cs.dropWhile isBlank).head?, isBlank c = false := by
  intro c hc
  have first := List.head?_dropWhile_not isBlank cs
  rw [hc] at first
  exact first

/-- **Removing blanks gives the one core of a text.** -/
theorem strips_iff {cs core : List Char} : Strips cs core ↔ trimBlanks cs = core := by
  constructor
  · rintro ⟨before, after, rfl, blank, first, last⟩
    have blankBefore : ∀ c ∈ before, isBlank c = true :=
      fun c hc => blank c (List.mem_append_left _ hc)
    have blankAfter : ∀ c ∈ after.reverse, isBlank c = true :=
      fun c hc => blank c (List.mem_append_right _ (List.mem_reverse.mp hc))
    rw [← List.head?_reverse] at last
    rw [trimBlanks, List.append_assoc]
    cases core with
    | nil =>
        have all : ∀ c ∈ before ++ after, isBlank c = true := blank
        rw [List.nil_append, ← List.append_nil (before ++ after), dropWhile_isBlank all (by simp)]
        rfl
    | cons c core =>
        have front : ∀ d ∈ (c :: core ++ after).head?, isBlank d = false := first
        rw [dropWhile_isBlank blankBefore front, List.reverse_append,
          dropWhile_isBlank blankAfter last, List.reverse_reverse]
  · rintro rfl
    have front := List.takeWhile_append_dropWhile (p := isBlank) (l := cs)
    generalize rest : cs.dropWhile isBlank = inner at front
    have back := List.takeWhile_append_dropWhile (p := isBlank) (l := inner.reverse)
    have whole : inner = trimBlanks cs ++ (inner.reverse.takeWhile isBlank).reverse := by
      rw [trimBlanks, rest, ← List.reverse_append, back, List.reverse_reverse]
    have blank : ∀ (cs : List Char), ∀ c ∈ cs.takeWhile isBlank, isBlank c = true :=
      fun cs => List.all_eq_true.mp List.all_takeWhile
    refine ⟨cs.takeWhile isBlank, (inner.reverse.takeWhile isBlank).reverse, ?_, ?_, ?_, ?_⟩
    · rw [List.append_assoc, ← whole, front]
    · intro c hc
      rcases List.mem_append.mp hc with hc | hc
      · exact blank _ c hc
      · exact blank _ c (List.mem_reverse.mp hc)
    · intro c hc
      -- The core is a beginning of what is left without the blanks in front.
      apply head?_dropWhile_isBlank cs c
      rw [rest, whole, List.head?_append, hc]
      rfl
    · intro c hc
      rw [trimBlanks, rest, List.getLast?_reverse] at hc
      exact head?_dropWhile_isBlank _ c hc

/-! ## Case -/

/-- The small letter of a capital one; other characters are their own. -/
def Lowers (c d : Char) : Prop := (Capital c ∧ d.toNat = c.toNat + 32) ∨ (¬ Capital c ∧ d = c)

/-- Without blanks around it and in small letters, the name is the word. -/
def Spelling (name word : String) : Prop :=
  ∃ core, Strips name.toList core ∧ List.Forall₂ Lowers core word.toList

theorem toNat_toLower {c : Char} (capital : Capital c) : c.toLower.toNat = c.toNat + 32 := by
  have upper : c.val.toNat ≤ 90 := capital.2
  have range : c.val ≥ 'A'.val ∧ c.val ≤ 'Z'.val := capital
  unfold Char.toLower
  rw [dif_pos range]
  show (c.val + 32).toNat = c.val.toNat + 32
  rw [UInt32.toNat_add]
  exact Nat.mod_eq_of_lt (Nat.lt_of_le_of_lt (Nat.add_le_add_right upper 32) (by decide))

theorem toLower_eq_iff {c d : Char} : c.toLower = d ↔ Lowers c d := by
  by_cases capital : Capital c
  · rw [Lowers, ← Char.toNat_inj, toNat_toLower capital]
    simp [capital, eq_comm]
  · have same : c.toLower = c := by
      unfold Char.toLower
      exact dif_neg capital
    rw [Lowers, same]
    simp [capital, eq_comm]

/-- **A name is a spelling of one word**, the one that is looked up. -/
theorem spelling_iff {name word : String} : Spelling name word ↔ lowerAscii (trim name) = word := by
  have lower : ∀ core : List Char, List.Forall₂ Lowers core word.toList ↔
      core.map Char.toLower = word.toList := by
    intro core
    rw [← List.forall₂_eq_eq_eq, List.forall₂_map_left_iff]
    simp only [toLower_eq_iff]
  rw [lowerAscii, ← String.toList_inj, String.toList_map, trim, String.toList_ofList, ← lower]
  constructor
  · rintro ⟨core, strips, lowers⟩
    rwa [strips_iff.mp strips]
  · intro lowers
    exact ⟨_, strips_iff.mpr rfl, lowers⟩

end RecordFormat.Text
