import Mathlib
import RecordFormat.Proofs.Schema.Literals
import RecordFormat.Proofs.Text.Words

/-!
# Names of constraints

Reading a list of names one after the other comes to what the list says as a whole: which keywords
are in it, and that no presence and no sort order is in it twice
(`Constraints.ofNames_eq_ok_iff`). So the order of the names, their case, the blanks around them and
repeated flags make no difference (`Constraints.ofNames_exact`).
-/

namespace RecordFormat.Constraints

open Outcome

/-- The words that stand for constraints. -/
inductive Keyword where
  | required
  | optional
  | ascending
  | descending
  | frequentlyUsed
  | derived
  | largeList
  deriving DecidableEq, Repr

namespace Keyword

def text : Keyword → String
  | .required => "required"
  | .optional => "optional"
  | .ascending => "asc_sorted"
  | .descending => "des_sorted"
  | .frequentlyUsed => "frequently_used"
  | .derived => "derived"
  | .largeList => "large_list"

/-- The plain flags, which may be repeated. -/
def IsFlag (k : Keyword) : Prop := k = .frequentlyUsed ∨ k = .derived ∨ k = .largeList

theorem text_injective : Function.Injective text := by
  intro k k' same
  cases k <;> cases k' <;> first | rfl | exact absurd same (by decide)

end Keyword

/-- Each of the names is a spelling of its keyword. -/
def Spell (names : List String) (words : List Keyword) : Prop :=
  List.Forall₂ (fun name k => Text.Spelling name (Keyword.text k)) names words

theorem spelling_unique {name : String} {k k' : Keyword} (h : Text.Spelling name k.text)
    (h' : Text.Spelling name k'.text) : k = k' :=
  Keyword.text_injective ((Text.spelling_iff.mp h).symm.trans (Text.spelling_iff.mp h'))

/-- No presence and no sort order is said twice. -/
structure Exclusive (words : List Keyword) : Prop where
  presence : words.count .required + words.count .optional ≤ 1
  sort : words.count .ascending + words.count .descending ≤ 1

/-- What is said makes constraints: a presence is among it, or follows from being derived. -/
structure Consistent (words : List Keyword) : Prop extends Exclusive words where
  present : .required ∈ words ∨ .optional ∈ words ∨ .derived ∈ words

namespace Exclusive

variable {words : List Keyword} {k : Keyword}

theorem nil : Exclusive [] := ⟨by simp, by simp⟩

theorem of_append {words' : List Keyword} (h : Exclusive (words ++ words')) : Exclusive words := by
  obtain ⟨presence, sort⟩ := h
  rw [List.count_append, List.count_append] at presence sort
  exact ⟨by omega, by omega⟩

/-- Presences and sort orders are only said where none was said before. -/
theorem append_iff (h : Exclusive words) : Exclusive (words ++ [k]) ↔
    (k = .required ∨ k = .optional → .required ∉ words ∧ .optional ∉ words) ∧
      (k = .ascending ∨ k = .descending → .ascending ∉ words ∧ .descending ∉ words) := by
  obtain ⟨presence, sort⟩ := h
  rw [← List.count_eq_zero, ← List.count_eq_zero, ← List.count_eq_zero, ← List.count_eq_zero]
  constructor
  · rintro ⟨presence', sort'⟩
    rw [List.count_append, List.count_append] at presence' sort'
    constructor
    · rintro (rfl | rfl) <;> simp at presence' <;> omega
    · rintro (rfl | rfl) <;> simp at sort' <;> omega
  · rintro ⟨absent, absent'⟩
    constructor
    · rw [List.count_append, List.count_append]
      cases k <;> simp at absent ⊢ <;> omega
    · rw [List.count_append, List.count_append]
      cases k <;> simp at absent' ⊢ <;> omega

end Exclusive

/-! ## Reading as a whole -/

namespace Reading

variable {r r' : Reading} {names : List String} {words : List Keyword} {k : Keyword}

/-- Notes what a keyword says. -/
def note (r : Reading) : Keyword → Except ModelError Reading
  | .required => r.setPresence .required
  | .optional => r.setPresence .optional
  | .ascending => r.setSort .ascending
  | .descending => r.setSort .descending
  | .frequentlyUsed => .ok { r with frequentlyUsed := true }
  | .derived => .ok { r with derived := true }
  | .largeList => .ok { r with largeList := true }

/-- What a list of keywords says, whatever their order. -/
def said (words : List Keyword) : Reading where
  presence := if .required ∈ words then some .required
    else if .optional ∈ words then some .optional else none
  sort := if .ascending ∈ words then some .ascending
    else if .descending ∈ words then some .descending else none
  frequentlyUsed := decide (.frequentlyUsed ∈ words)
  derived := decide (.derived ∈ words)
  largeList := decide (.largeList ∈ words)

theorem read_of_spelling {name : String} (spelling : Text.Spelling name k.text) :
    r.read name = r.note k := by
  rw [read, Text.spelling_iff.mp spelling]
  cases k <;> rfl

/-- **Only keywords are read.** -/
theorem read_eq_ok_iff {name : String} :
    r.read name = .ok r' ↔ ∃ k : Keyword, Text.Spelling name k.text ∧ r.note k = .ok r' := by
  constructor
  · intro read
    have known : ∃ k : Keyword, Text.lowerAscii (Text.trim name) = k.text := by
      unfold Reading.read at read
      dsimp only at read
      split at read
      · next key => exact ⟨.required, key⟩
      split at read
      · next key => exact ⟨.optional, key⟩
      split at read
      · next key => exact ⟨.ascending, key⟩
      split at read
      · next key => exact ⟨.descending, key⟩
      split at read
      · next key => exact ⟨.frequentlyUsed, key⟩
      split at read
      · next key => exact ⟨.derived, key⟩
      split at read
      · next key => exact ⟨.largeList, key⟩
      · cases read
    obtain ⟨k, key⟩ := known
    have spelling := Text.spelling_iff.mpr key
    exact ⟨k, spelling, (read_of_spelling spelling).symm.trans read⟩
  · rintro ⟨k, spelling, noted⟩
    exact (read_of_spelling spelling).trans noted

theorem foldlM_read_eq_ok_iff :
    names.foldlM read r = .ok r' ↔ ∃ words, Spell names words ∧ words.foldlM note r = .ok r' := by
  induction names generalizing r with
  | nil =>
      constructor
      · intro done
        exact ⟨[], .nil, done⟩
      · rintro ⟨words, spell, done⟩
        cases spell
        exact done
  | cons name names ih =>
      rw [List.foldlM_cons, bind_eq_ok_iff]
      constructor
      · rintro ⟨s, first, rest⟩
        obtain ⟨k, spelling, noted⟩ := read_eq_ok_iff.mp first
        obtain ⟨words, spell, done⟩ := ih.mp rest
        refine ⟨k :: words, .cons spelling spell, ?_⟩
        rw [List.foldlM_cons, noted]
        exact done
      · rintro ⟨words, spell, done⟩
        cases spell with
        | @cons _ k _ words spelling spell =>
            rw [List.foldlM_cons, bind_eq_ok_iff] at done
            obtain ⟨s, noted, rest⟩ := done
            exact ⟨s, read_eq_ok_iff.mpr ⟨k, spelling, noted⟩, ih.mpr ⟨words, spell, rest⟩⟩

theorem presence_said_eq_none_iff :
    (said words).presence = none ↔ .required ∉ words ∧ .optional ∉ words := by
  unfold said
  by_cases required : Keyword.required ∈ words <;> simp [required]

theorem sort_said_eq_none_iff :
    (said words).sort = none ↔ .ascending ∉ words ∧ .descending ∉ words := by
  unfold said
  by_cases ascending : Keyword.ascending ∈ words <;> simp [ascending]

theorem setPresence_eq_ok_iff {p : Presence} : r.setPresence p = .ok r' ↔
    r.presence = none ∧ { r with presence := some p } = r' := by
  unfold setPresence
  cases r.presence <;> simp

theorem setSort_eq_ok_iff {o : SortOrder} : r.setSort o = .ok r' ↔
    r.sort = none ∧ { r with sort := some o } = r' := by
  unfold setSort
  cases r.sort <;> simp

/-- **One more keyword is noted where it may be said**, and is then said with the others. -/
theorem note_said_eq_ok_iff (before : Exclusive words) : (said words).note k = .ok r ↔
    Exclusive (words ++ [k]) ∧ said (words ++ [k]) = r := by
  rw [before.append_iff]
  cases k with
  | required | optional =>
      rw [note, setPresence_eq_ok_iff, presence_said_eq_none_iff]
      simp only [true_or, or_true, reduceCtorEq, or_self, false_implies, and_true, true_implies]
      refine and_congr_right fun absent => ?_
      simp [said, absent]
  | ascending | descending =>
      rw [note, setSort_eq_ok_iff, sort_said_eq_none_iff]
      simp only [true_or, or_true, reduceCtorEq, or_self, false_implies, true_and, true_implies]
      refine and_congr_right fun absent => ?_
      simp [said, absent]
  | frequentlyUsed | derived | largeList => simp [note, said]

/-- **Noting keywords one after the other** is to say them without contradiction. -/
theorem foldlM_note_eq_ok_iff :
    words.foldlM note {} = .ok r ↔ Exclusive words ∧ said words = r := by
  induction words using List.reverseRecOn generalizing r with
  | nil =>
      have silent : said [] = {} := rfl
      rw [List.foldlM_nil, silent]
      exact pure_eq_ok_iff.trans (iff_and_self.mpr fun _ => .nil)
  | append_singleton words k ih =>
      rw [List.foldlM_append, bind_eq_ok_iff]
      simp only [List.foldlM_cons, List.foldlM_nil, bind_pure]
      constructor
      · rintro ⟨s, first, last⟩
        obtain ⟨before, rfl⟩ := ih.mp first
        exact (note_said_eq_ok_iff before).mp last
      · rintro ⟨exclusive, rfl⟩
        -- What is exclusive as a whole was so before the last keyword.
        have before := exclusive.of_append
        exact ⟨said words, ih.mpr ⟨before, rfl⟩, (note_said_eq_ok_iff before).mpr ⟨exclusive, rfl⟩⟩

end Reading

/-- The constraints that a list of keywords makes, whatever their order. -/
def ofWords (words : List Keyword) : Constraints where
  presence := if .required ∈ words then .required else .optional
  sort := (Reading.said words).sort
  frequentlyUsed := decide (.frequentlyUsed ∈ words)
  derived := decide (.derived ∈ words)
  largeList := decide (.largeList ∈ words)

variable {names names' : List String} {words words' : List Keyword} {c : Constraints}

theorem finish_said_eq_ok_iff : (Reading.said words).finish = .ok c ↔
    (.required ∈ words ∨ .optional ∈ words ∨ .derived ∈ words) ∧ ofWords words = c := by
  unfold Reading.finish Reading.said ofWords
  by_cases required : Keyword.required ∈ words <;> by_cases optional : Keyword.optional ∈ words <;>
    by_cases derived : Keyword.derived ∈ words <;> simp [required, optional, derived, Reading.said]

/-- **A list of names is read as what it says as a whole.** -/
theorem ofNames_eq_ok_iff :
    ofNames names = .ok c ↔ ∃ words, Spell names words ∧ Consistent words ∧ ofWords words = c := by
  rw [ofNames, bind_eq_ok_iff]
  constructor
  · rintro ⟨r, read, finished⟩
    obtain ⟨words, spell, noted⟩ := Reading.foldlM_read_eq_ok_iff.mp read
    obtain ⟨exclusive, rfl⟩ := Reading.foldlM_note_eq_ok_iff.mp noted
    obtain ⟨present, made⟩ := finish_said_eq_ok_iff.mp finished
    exact ⟨words, spell, ⟨exclusive, present⟩, made⟩
  · rintro ⟨words, spell, consistent, made⟩
    refine ⟨Reading.said words, ?_, finish_said_eq_ok_iff.mpr ⟨consistent.present, made⟩⟩
    refine Reading.foldlM_read_eq_ok_iff.mpr ⟨words, spell, ?_⟩
    exact Reading.foldlM_note_eq_ok_iff.mpr ⟨consistent.toExclusive, rfl⟩

/-! ## The same said otherwise -/

/-- Two names differ in case and in the blanks around them at most. -/
def SameWord (name name' : String) : Prop :=
  ∃ word, Text.Spelling name word ∧ Text.Spelling name' word

/-- Other ways to say the same: the names in another order, in another case or with other blanks
around them, and a flag more or less often. -/
inductive Rewording : List String → List String → Prop
  | order {names names' : List String} : names.Perm names' → Rewording names names'
  | spelling {names names' : List String} :
      List.Forall₂ SameWord names names' → Rewording names names'
  | again {k : Keyword} {flag name : String} {names : List String} : k.IsFlag →
      Text.Spelling flag k.text → name ∈ names → Text.Spelling name k.text →
      Rewording names (flag :: names)
  | once {k : Keyword} {flag name : String} {names : List String} : k.IsFlag →
      Text.Spelling flag k.text → name ∈ names → Text.Spelling name k.text →
      Rewording (flag :: names) names
  | trans {names names' names'' : List String} : Rewording names names' →
      Rewording names' names'' → Rewording names names''

/-- The same keywords are said, and equally often unless they are flags. -/
structure SaysAlike (words words' : List Keyword) : Prop where
  mem : ∀ k, k ∈ words ↔ k ∈ words'
  count : ∀ k : Keyword, ¬ k.IsFlag → words.count k = words'.count k

namespace SaysAlike

theorem symm (h : SaysAlike words words') : SaysAlike words' words :=
  ⟨fun k => (h.mem k).symm, fun k plain => (h.count k plain).symm⟩

theorem trans {words'' : List Keyword} (h : SaysAlike words words')
    (h' : SaysAlike words' words'') : SaysAlike words words'' :=
  ⟨fun k => (h.mem k).trans (h'.mem k), fun k plain => (h.count k plain).trans (h'.count k plain)⟩

theorem of_perm (perm : words.Perm words') : SaysAlike words words' :=
  ⟨fun _ => perm.mem_iff, fun _ _ => perm.count_eq _⟩

/-- A flag said again. -/
theorem cons {k : Keyword} (flag : k.IsFlag) (mem : k ∈ words) : SaysAlike words (k :: words) where
  mem k' := by
    rw [List.mem_cons]
    constructor
    · exact .inr
    · rintro (rfl | old)
      · exact mem
      · exact old
  count k' plain := by
    refine (List.count_cons_of_ne ?_).symm
    rintro rfl
    exact plain flag

theorem consistent (h : SaysAlike words words') (consistent : Consistent words) :
    Consistent words' := by
  obtain ⟨⟨presence, sort⟩, present⟩ := consistent
  have counts := h.count
  rw [counts _ (by simp [Keyword.IsFlag]), counts _ (by simp [Keyword.IsFlag])] at presence sort
  rw [h.mem, h.mem, h.mem] at present
  exact ⟨⟨presence, sort⟩, present⟩

theorem ofWords_eq (h : SaysAlike words words') : ofWords words = ofWords words' := by
  unfold ofWords Reading.said
  simp only [h.mem]

end SaysAlike

theorem Spell.unique (h : Spell names words) (h' : Spell names words') : words = words' := by
  have unique : Relator.RightUnique fun (name : String) (k : Keyword) =>
      Text.Spelling name k.text := fun _ _ _ => spelling_unique
  exact unique.forall₂ h h'

theorem Spell.mem {k : Keyword} {name : String} (spell : Spell names words) (mem : name ∈ names)
    (spelling : Text.Spelling name k.text) : k ∈ words := by
  obtain ⟨k', mem', spelling'⟩ := exists_right_of_mem spell mem
  exact spelling_unique spelling' spelling ▸ mem'

/-- Other spellings are spellings of the same keywords. -/
theorem Spell.respelled (same : List.Forall₂ SameWord names names') (spell : Spell names words) :
    Spell names' words := by
  induction same generalizing words with
  | nil =>
      cases spell
      exact .nil
  | cons here _ ih =>
      obtain ⟨word, first, second⟩ := here
      cases spell with
      | cons spelling rest =>
          obtain rfl := (Text.spelling_iff.mp first).symm.trans (Text.spelling_iff.mp spelling)
          exact .cons second (ih rest)

/-- **What is said otherwise says the same.** -/
theorem Rewording.exists_spell (h : Rewording names names') (spell : Spell names words) :
    ∃ words', Spell names' words' ∧ SaysAlike words words' := by
  induction h generalizing words with
  | order perm =>
      obtain ⟨words', spell', perm'⟩ := List.perm_comp_forall₂ perm.symm spell
      exact ⟨words', spell', .of_perm perm'.symm⟩
  | spelling same => exact ⟨words, spell.respelled same, .of_perm (.refl words)⟩
  | @again k _ _ _ flag spelling mem spelling' =>
      exact ⟨k :: words, .cons spelling spell, .cons flag (spell.mem mem spelling')⟩
  | once flag spelling mem spelling' =>
      cases spell with
      | cons first rest =>
          -- The flag that goes is still said by another name.
          obtain rfl := spelling_unique first spelling
          exact ⟨_, rest, (SaysAlike.cons flag (Spell.mem rest mem spelling')).symm⟩
  | trans _ _ ih ih' =>
      obtain ⟨words', spell', alike⟩ := ih spell
      obtain ⟨words'', spell'', alike'⟩ := ih' spell'
      exact ⟨words'', spell'', alike.trans alike'⟩

/-- **Lists of names are read as sets.** A list is read exactly when it consists of keywords, with
at most one presence and at most one sort order among them, and a presence or being derived. It is
read as what its keywords say, in whatever way they are said, and the names of these constraints are
read as them again. -/
theorem ofNames_exact (names : List String) :
    ((∃ c, ofNames names = .ok c) ↔ ∃ words, Spell names words ∧ Consistent words) ∧
    ∀ c, ofNames names = .ok c →
      (∀ words, Spell names words → c = ofWords words) ∧
      (∀ names', Rewording names names' → ofNames names' = .ok c) ∧ ofNames c.names = .ok c := by
  constructor
  · constructor
    · rintro ⟨c, read⟩
      obtain ⟨words, spell, consistent, -⟩ := ofNames_eq_ok_iff.mp read
      exact ⟨words, spell, consistent⟩
    · rintro ⟨words, spell, consistent⟩
      exact ⟨ofWords words, ofNames_eq_ok_iff.mpr ⟨words, spell, consistent, rfl⟩⟩
  · intro c read
    obtain ⟨words, spell, consistent, rfl⟩ := ofNames_eq_ok_iff.mp read
    refine ⟨?_, ?_, ofNames_names _⟩
    · intro words' spell'
      rw [spell.unique spell']
    · intro names' rewording
      obtain ⟨words', spell', alike⟩ := rewording.exists_spell spell
      have consistent' := alike.consistent consistent
      exact ofNames_eq_ok_iff.mpr ⟨words', spell', consistent', alike.ofWords_eq.symm⟩

/-- A large sorted list, said backwards, in capitals and more than once. -/
theorem ofNames_exact_largeList :
    let names := ["optional", "asc_sorted", "large_list"]
    let names' := [" Large_List", "large_list", "ASC_SORTED\t", "optional"]
    let c : Constraints := { presence := .optional, sort := some .ascending, largeList := true }
    ofNames names = .ok c ∧ Spell names [.optional, .ascending, .largeList] ∧
      c = ofWords [.optional, .ascending, .largeList] ∧ Rewording names names' ∧
      ofNames names' = .ok c ∧ ofNames c.names = .ok c := by
  intro names names' c
  have spelling (name : String) (k : Keyword)
      (word : Text.lowerAscii (Text.trim name) = k.text) : Text.Spelling name k.text :=
    Text.spelling_iff.mpr word
  have largeList := spelling "large_list" .largeList (by cbv)
  have ascending := spelling "asc_sorted" .ascending (by cbv)
  have optional := spelling "optional" .optional (by cbv)
  have spell : Spell names [.optional, .ascending, .largeList] :=
    .cons optional (.cons ascending (.cons largeList .nil))
  have backwards : names.Perm ["large_list", "asc_sorted", "optional"] := by decide
  have respelled : List.Forall₂ SameWord ["large_list", "asc_sorted", "optional"]
      ["large_list", "ASC_SORTED\t", "optional"] := by
    have capital := spelling "ASC_SORTED\t" .ascending (by cbv)
    exact .cons ⟨_, largeList, largeList⟩ (.cons ⟨_, ascending, capital⟩
      (.cons ⟨_, optional, optional⟩ .nil))
  have repeated : Rewording ["large_list", "ASC_SORTED\t", "optional"] names' :=
    .again (.inr (.inr rfl)) (spelling _ .largeList (by cbv)) (List.mem_cons_self ..) largeList
  have rewording : Rewording names names' :=
    (Rewording.order backwards).trans ((Rewording.spelling respelled).trans repeated)
  have read : ofNames names = .ok c := by cbv
  obtain ⟨meaning, same, again⟩ := (ofNames_exact names).2 c read
  exact ⟨read, spell, meaning _ spell, rewording, same names' rewording, again⟩

end RecordFormat.Constraints
