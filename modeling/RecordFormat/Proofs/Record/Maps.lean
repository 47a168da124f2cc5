import Mathlib.Data.List.Basic
import RecordFormat.Record.IdMap

/-!
# Maps by field number

A map is known by what `find?` gives: insertion, removal and the overlay of one map by
another are described through it, all of them keep the numbers ascending, and ascending maps
with the same numbers list them in the same order (`Sorted.ids_eq`).
-/

namespace RecordFormat.IdMap

variable {α β γ : Type}

@[simp] theorem find?_nil (i : Int16) : find? ([] : IdMap α) i = none := rfl

theorem find?_cons (e : Int16 × α) (rest : IdMap α) (i : Int16) :
    find? (e :: rest) i = if e.1 = i then some e.2 else find? rest i := by
  unfold find?
  by_cases h : e.1 = i
  · simp [h]
  · simp [h]

theorem find?_eq_none_iff {m : IdMap α} {i : Int16} : m.find? i = none ↔ i ∉ m.ids := by
  simp only [find?, ids, Option.map_eq_none_iff, List.find?_eq_none, decide_eq_true_eq,
    List.mem_map, not_exists, not_and]

theorem isSome_find?_iff {m : IdMap α} {i : Int16} : (m.find? i).isSome ↔ i ∈ m.ids := by
  rw [← not_iff_not, Bool.not_eq_true, Option.isSome_eq_false_iff, Option.isNone_iff_eq_none,
    find?_eq_none_iff]

theorem contains_iff {m : IdMap α} {i : Int16} : m.contains i = true ↔ i ∈ m.ids := by
  simp [contains, ids]

theorem mem_ids_of_find? {m : IdMap α} {i : Int16} {a : α} (h : m.find? i = some a) :
    i ∈ m.ids :=
  isSome_find?_iff.mp (h ▸ rfl)

theorem exists_of_mem_ids {m : IdMap α} {i : Int16} (h : i ∈ m.ids) :
    ∃ a, m.find? i = some a :=
  Option.isSome_iff_exists.mp (isSome_find?_iff.mpr h)

/-! ## Ascending maps -/

theorem sorted_iff {m : IdMap α} : Sorted m ↔ m.ids.Pairwise (· < ·) := by
  rw [ids, List.pairwise_map]
  rfl

instance {m : IdMap α} : Decidable (Sorted m) :=
  inferInstanceAs (Decidable (List.Pairwise _ _))

theorem sorted_nil : Sorted ([] : IdMap α) := List.Pairwise.nil

theorem Sorted.nodup {m : IdMap α} (h : Sorted m) : m.ids.Nodup :=
  (sorted_iff.mp h).imp Int16.ne_of_lt

/-- No number stands twice, so the entries are what is found. -/
theorem find?_eq_some_iff : ∀ {m : IdMap α} {i : Int16} {a : α}, m.ids.Nodup →
    (m.find? i = some a ↔ (i, a) ∈ m)
  | [], _, _, _ => by simp
  | (j, b) :: rest, i, a, h => by
      rcases List.nodup_cons.mp h with ⟨fresh, nodup⟩
      rw [find?_cons, List.mem_cons, ← find?_eq_some_iff nodup, Prod.mk.injEq]
      by_cases here : j = i
      · subst here
        have absent : find? rest j = none := find?_eq_none_iff.mpr fresh
        simp [absent, eq_comm]
      · simp [here, Ne.symm here]

/-- Ascending maps with the same numbers list them in the same order. -/
theorem Sorted.ids_eq {m : IdMap α} {n : IdMap β} (hm : Sorted m) (hn : Sorted n)
    (h : ∀ i, i ∈ m.ids ↔ i ∈ n.ids) : m.ids = n.ids := by
  have perm : m.ids.Perm n.ids := (List.perm_ext_iff_of_nodup hm.nodup hn.nodup).mpr h
  refine perm.eq_of_pairwise (fun a b _ _ ab ba => ?_) (sorted_iff.mp hm) (sorted_iff.mp hn)
  exact absurd ba (Int16.lt_asymm ab)

/-- Ascending maps are determined by what is found in them. -/
theorem Sorted.eq_of_find? {m n : IdMap α} (hm : Sorted m) (hn : Sorted n)
    (same : m.find? = n.find?) : m = n := by
  have nodup : ∀ {k : IdMap α}, Sorted k → k.Nodup := by
    intro k sorted
    refine List.Pairwise.imp ?_ sorted
    rintro a _ lt rfl
    exact Int16.lt_irrefl lt
  have perm : m.Perm n := by
    refine (List.perm_ext_iff_of_nodup (nodup hm) (nodup hn)).mpr ?_
    rintro ⟨i, a⟩
    rw [← find?_eq_some_iff hm.nodup, ← find?_eq_some_iff hn.nodup, same]
  refine perm.eq_of_pairwise (fun a b _ _ ab ba => ?_) hm hn
  exact absurd ba (Int16.lt_asymm ab)

/-! ## Insertion -/

theorem find?_insert (j : Int16) (a : α) (i : Int16) : ∀ (m : IdMap α),
    (m.insert j a).find? i = if j = i then some a else m.find? i
  | [] => by simp [insert, find?_cons]
  | (k, b) :: rest => by
      rw [insert]
      by_cases before : j < k
      · rw [if_pos before, find?_cons]
      · rw [if_neg before]
        by_cases here : j = k
        · subst here
          rw [if_pos rfl, find?_cons, find?_cons]
          split <;> rfl
        · rw [if_neg here, find?_cons, find?_cons, find?_insert j a i rest]
          by_cases found : k = i
          · have other : j ≠ i := fun eq => here (eq.trans found.symm)
            simp [found, other]
          · simp [found]

theorem Sorted.insert {j : Int16} {a : α} : ∀ {m : IdMap α}, Sorted m → Sorted (m.insert j a)
  | [], _ => List.pairwise_singleton _ _
  | (k, b) :: rest, h => by
      rcases List.pairwise_cons.mp h with ⟨first, tail⟩
      rw [IdMap.insert]
      by_cases before : j < k
      · rw [if_pos before]
        refine List.pairwise_cons.mpr ⟨fun e he => ?_, h⟩
        rcases List.mem_cons.mp he with rfl | he
        · exact before
        · exact Int16.lt_trans before (first e he)
      · rw [if_neg before]
        by_cases here : j = k
        · subst here
          rw [if_pos rfl]
          exact List.pairwise_cons.mpr ⟨first, tail⟩
        · rw [if_neg here]
          refine List.pairwise_cons.mpr ⟨fun e he => ?_, Sorted.insert tail⟩
          rcases mem_insert he with rfl | he
          · exact Int16.lt_of_le_of_ne (Int16.not_lt.mp before) (Ne.symm here)
          · exact first e he

/-- Entries with numbers of their own take the place of what was there. -/
theorem find?_insertAll (i : Int16) : ∀ {entries : IdMap α} {m : IdMap α}, entries.ids.Nodup →
    (m.insertAll entries).find? i = (entries.find? i).or (m.find? i)
  | [], _, _ => by simp [insertAll]
  | (j, a) :: rest, m, h => by
      rcases List.nodup_cons.mp h with ⟨fresh, nodup⟩
      have step : m.insertAll ((j, a) :: rest) = (m.insert j a).insertAll rest := rfl
      rw [step, find?_insertAll i nodup, find?_insert, find?_cons]
      by_cases here : j = i
      · subst here
        have absent : find? rest j = none := find?_eq_none_iff.mpr fresh
        simp [absent]
      · simp [here]

theorem mem_ids_insertAll {i : Int16} : ∀ {entries m : IdMap α},
    i ∈ (m.insertAll entries).ids ↔ i ∈ m.ids ∨ i ∈ entries.ids
  | [], m => by simp [insertAll, ids]
  | (j, a) :: rest, m => by
      have step : m.insertAll ((j, a) :: rest) = (m.insert j a).insertAll rest := rfl
      have here : i ∈ (m.insert j a).ids ↔ j = i ∨ i ∈ m.ids := by
        rw [← isSome_find?_iff, ← isSome_find?_iff, find?_insert]
        split <;> simp_all
      rw [step, mem_ids_insertAll, here]
      simp only [ids, List.map_cons, List.mem_cons, eq_comm (a := i)]
      tauto

theorem Sorted.insertAll : ∀ {entries : IdMap α} {m : IdMap α}, Sorted m →
    Sorted (m.insertAll entries)
  | [], _, h => h
  | (j, a) :: rest, m, h => by
      have step : m.insertAll ((j, a) :: rest) = (m.insert j a).insertAll rest := rfl
      rw [step]
      exact Sorted.insertAll h.insert

/-! ## Removal -/

theorem find?_filter (keep : Int16 → Bool) (i : Int16) : ∀ (m : IdMap α),
    find? (m.filter fun e => keep e.1) i = if keep i then m.find? i else none
  | [] => by simp
  | (j, a) :: rest => by
      have ih := find?_filter keep i rest
      rw [List.filter_cons, find?_cons]
      by_cases here : j = i
      · subst here
        by_cases kept : keep j = true
        · simp [kept, find?_cons]
        · simp [kept, ih]
      · by_cases kept : keep j = true
        · simp [kept, find?_cons, here, ih]
        · simp [kept, here, ih]

theorem find?_erase (j i : Int16) (m : IdMap α) :
    (m.erase j).find? i = if j = i then none else m.find? i := by
  have := find?_filter (fun k => k ≠ j) i m
  rw [erase, this]
  by_cases here : j = i
  · simp [here]
  · simp [here, Ne.symm here]

theorem Sorted.filter {m : IdMap α} {keep : Int16 × α → Bool} (h : Sorted m) :
    Sorted (m.filter keep) :=
  List.Pairwise.filter keep h

theorem Sorted.erase {m : IdMap α} {j : Int16} (h : Sorted m) : Sorted (m.erase j) := h.filter

/-! ## Maps that agree -/

/-- The same numbers, and related values under each. -/
structure Agree (R : α → β → Prop) (m : IdMap α) (n : IdMap β) : Prop where
  ids : m.ids = n.ids
  values : ∀ i a b, m.find? i = some a → n.find? i = some b → R a b

/-- Ascending maps agree when lookups do. -/
theorem Sorted.agree {R : α → β → Prop} {m : IdMap α} {n : IdMap β} (hm : Sorted m)
    (hn : Sorted n) (h : ∀ i, Option.Rel R (m.find? i) (n.find? i)) : Agree R m n where
  ids := hm.ids_eq hn fun i => by
    have rel := h i
    rw [← isSome_find?_iff, ← isSome_find?_iff]
    generalize find? m i = x at rel
    generalize find? n i = y at rel
    cases rel <;> simp
  values i a b ha hb := by
    have rel := h i
    rw [ha, hb] at rel
    exact Option.rel_some_some.mp rel

/-- Maps agree when their entries do one by one. -/
theorem agree_of_forall₂ {R : α → β → Prop} {m : IdMap α} {n : IdMap β}
    (h : List.Forall₂ (fun e e' => e.1 = e'.1 ∧ R e.2 e'.2) m n) : Agree R m n := by
  induction h with
  | nil => exact ⟨rfl, nofun⟩
  | @cons e e' rest rest' here _ ih =>
      obtain ⟨same, related⟩ := here
      constructor
      · show e.1 :: ids rest = e'.1 :: ids rest'
        rw [same, ih.ids]
      · intro i a b ha hb
        rw [find?_cons] at ha hb
        by_cases found : e.1 = i
        · rw [if_pos found, Option.some.injEq] at ha
          rw [if_pos (same ▸ found), Option.some.injEq] at hb
          subst ha hb
          exact related
        · rw [if_neg found] at ha
          rw [if_neg (same ▸ found)] at hb
          exact ih.values i a b ha hb

namespace Agree

variable {R : α → β → Prop} {S : β → γ → Prop} {T : α → γ → Prop} {m : IdMap α} {n : IdMap β}
  {k : IdMap γ}

theorem exists_right (h : Agree R m n) {i : Int16} {a : α} (ha : m.find? i = some a) :
    ∃ b, n.find? i = some b ∧ R a b := by
  have present := mem_ids_of_find? ha
  rw [h.ids] at present
  obtain ⟨b, hb⟩ := exists_of_mem_ids present
  exact ⟨b, hb, h.values i a b ha hb⟩

/-- Lookups in maps that agree. -/
theorem rel (h : Agree R m n) (i : Int16) : Option.Rel R (m.find? i) (n.find? i) := by
  cases hm : m.find? i with
  | none =>
      have absent := find?_eq_none_iff.mp hm
      rw [h.ids] at absent
      rw [find?_eq_none_iff.mpr absent]
      exact .none
  | some a =>
      obtain ⟨b, hb, related⟩ := h.exists_right hm
      rw [hb]
      exact .some related

theorem refl {R : α → α → Prop} {m : IdMap α} (h : ∀ i a, m.find? i = some a → R a a) :
    Agree R m m where
  ids := rfl
  values i a b ha hb := by
    rw [ha] at hb
    cases hb
    exact h i a ha

theorem symm {S : β → α → Prop} (h : Agree R m n)
    (flip : ∀ i a b, m.find? i = some a → R a b → S b a) : Agree S n m where
  ids := h.ids.symm
  values i b a hb ha := flip i a b ha (h.values i a b ha hb)

theorem trans (h : Agree R m n) (h' : Agree S n k)
    (comp : ∀ i a b c, m.find? i = some a → R a b → S b c → T a c) : Agree T m k where
  ids := h.ids.trans h'.ids
  values i a c ha hc := by
    obtain ⟨b, hb, hab⟩ := h.exists_right ha
    exact comp i a b c ha hab (h'.values i b c hb hc)

end Agree

end RecordFormat.IdMap
