import Mathlib.Data.List.Perm.Subperm
import Mathlib.Data.List.Nodup
import RecordFormat.Record.Encoding

/-!
# Spans of octets

A span is given by where it begins and where it ends. Spans that lie beside one another and
inside a larger one have no more octets together than that: their places are different numbers
of its range.
-/

namespace RecordFormat

/-- One span ends before the other begins. -/
def Beside (a b : Nat × Nat) : Prop := a.2 ≤ b.1 ∨ b.2 ≤ a.1

instance (a b : Nat × Nat) : Decidable (Beside a b) := inferInstanceAs (Decidable (_ ∨ _))

/-- The places of a span. -/
private def places (s : Nat × Nat) : List Nat := List.range' s.1 (s.2 - s.1)

private theorem mem_places {s : Nat × Nat} {i : Nat} : i ∈ places s ↔ s.1 ≤ i ∧ i < s.2 := by
  rw [places, List.mem_range'_1]
  omega

private theorem length_flatMap_places (spans : List (Nat × Nat)) :
    (spans.flatMap places).length = total (spans.map fun s => s.2 - s.1) := by
  induction spans with
  | nil => rfl
  | cons s rest ih =>
      rw [List.flatMap_cons, List.length_append, ih, places, List.length_range']
      rfl

/-- **Spans beside one another** fit into the one around them. -/
theorem total_le_of_beside {spans : List (Nat × Nat)} {first last : Nat}
    (apart : spans.Pairwise Beside) (inside : ∀ s ∈ spans, first ≤ s.1 ∧ s.2 ≤ last) :
    total (spans.map fun s => s.2 - s.1) ≤ last - first := by
  have nodup : (spans.flatMap places).Nodup := by
    refine List.nodup_flatMap.mpr ⟨fun s _ => List.nodup_range' 1, apart.imp ?_⟩
    intro a b beside i here there
    rw [mem_places] at here there
    rcases beside with before | after <;> omega
  have within : spans.flatMap places ⊆ List.range' first (last - first) := by
    intro i mem
    obtain ⟨s, hs, here⟩ := List.mem_flatMap.mp mem
    have := inside s hs
    rw [mem_places] at here
    rw [List.mem_range'_1]
    omega
  have := (List.subperm_of_subset nodup within).length_le
  rwa [length_flatMap_places, List.length_range'] at this

theorem total_append (xs ys : List Nat) : total (xs ++ ys) = total xs + total ys :=
  List.sum_append_nat

theorem total_le_total : ∀ {xs ys : List Nat}, List.Forall₂ (· ≤ ·) xs ys → total xs ≤ total ys
  | _, _, .nil => Nat.le_refl _
  | _, _, .cons here rest => Nat.add_le_add here (total_le_total rest)

theorem le_total_of_mem {n : Nat} : ∀ {xs : List Nat}, n ∈ xs → n ≤ total xs
  | x :: rest, mem => by
      show n ≤ x + total rest
      rcases List.mem_cons.mp mem with rfl | mem
      · exact Nat.le_add_right _ _
      · exact Nat.le_trans (le_total_of_mem mem) (Nat.le_add_left _ _)

end RecordFormat
