import Mathlib
import RecordFormat.Text.Utf8

/-!
# Strings in the order of their octets

UTF-8 keeps the order of code points. Where two characters differ, their encodings differ first at
an octet that is smaller for the smaller character; and no encoding begins another one. So strings
compare as their octets do (`Text.compare_eq_compare_octets`).
-/

namespace RecordFormat

/-- The first place where the lists differ is in both, and there the first one is smaller. -/
inductive Diverges {α : Type} [LT α] : List α → List α → Prop
  | here {x y : α} {xs ys : List α} : x < y → Diverges (x :: xs) (y :: ys)
  | later {x : α} {xs ys : List α} : Diverges xs ys → Diverges (x :: xs) (x :: ys)

namespace Diverges

/-- What follows does not matter. -/
theorem append_lt {α : Type} [LT α] {xs ys : List α} (h : Diverges xs ys) (rest rest' : List α) :
    xs ++ rest < ys ++ rest' := by
  induction h with
  | here smaller => exact .rel smaller
  | later _ ih => exact .cons ih

theorem ofNat_cons {m n : Nat} {xs ys : List UInt8} (bound : n < 256) (le : m ≤ n)
    (rest : m = n → Diverges xs ys) : Diverges (UInt8.ofNat m :: xs) (UInt8.ofNat n :: ys) := by
  rcases Nat.lt_or_eq_of_le le with smaller | rfl
  · refine .here (UInt8.lt_iff_toNat_lt.mpr ?_)
    rw [UInt8.toNat_ofNat_of_lt' bound, UInt8.toNat_ofNat_of_lt' (Nat.lt_trans smaller bound)]
    exact smaller
  · exact .later (rest rfl)

end Diverges

namespace Text

/-- The smaller character is the smaller one at the first octet where the encodings differ. -/
theorem diverges_utf8EncodeChar {c d : Char} (h : c < d) :
    Diverges (String.utf8EncodeChar c) (String.utf8EncodeChar d) := by
  have smaller : c.val.toNat < d.val.toNat := h
  have valid : d.val.toNat < 0x110000 := by
    rcases d.valid with low | ⟨-, high⟩
    · exact Nat.lt_trans low (by decide)
    · exact high
  unfold String.utf8EncodeChar
  generalize c.val.toNat = m at *
  generalize d.val.toNat = n at *
  dsimp only
  -- Longer encodings have larger first octets; encodings of one length are digits of the character.
  split_ifs
  all_goals
    repeat' refine Diverges.ofNat_cons (by omega) (by omega) fun _ => ?_
    omega

theorem octets_utf8 (s : String) : octets (utf8 s) = s.toList.flatMap String.utf8EncodeChar := by
  rw [utf8, ← String.utf8Encode_toList, List.utf8Encode, octets_toByteArray]

/-- Encodings keep the order of texts. -/
theorem flatMap_utf8EncodeChar_lt {cs ds : List Char} (h : cs < ds) :
    cs.flatMap String.utf8EncodeChar < ds.flatMap String.utf8EncodeChar := by
  induction h with
  | @nil d ds =>
      obtain ⟨x, xs, encoded⟩ := List.exists_cons_of_ne_nil (String.utf8EncodeChar_ne_nil (c := d))
      rw [List.flatMap_nil, List.flatMap_cons, encoded]
      exact .nil
  | @rel c cs d ds smaller =>
      rw [List.flatMap_cons, List.flatMap_cons]
      exact (diverges_utf8EncodeChar smaller).append_lt _ _
  | @cons c cs ds _ ih =>
      rw [List.flatMap_cons, List.flatMap_cons]
      exact List.append_left_lt ih

theorem compare_octets_eq_lt_iff : ∀ {xs ys : List UInt8}, compare xs ys = .lt ↔ xs < ys
  | [], [] => by simp
  | [], y :: ys => iff_of_true List.compareLex_nil_cons (List.nil_lt_cons y ys)
  | x :: xs, [] => by
      rw [List.compare_eq_compareLex, List.compareLex_cons_nil]
      exact iff_of_false (by simp) (List.not_lt_nil _)
  | x :: xs, y :: ys => by
      rw [List.compare_eq_compareLex, List.compareLex_cons_cons, Ordering.then_eq_lt,
        List.cons_lt_cons_iff, Std.LawfulLTCmp.eq_lt_iff_lt, Std.compare_eq_iff_eq,
        ← List.compare_eq_compareLex, compare_octets_eq_lt_iff]

instance lawfulLTOrd_octets : Std.LawfulLTOrd (List UInt8) where
  eq_lt_iff_lt := compare_octets_eq_lt_iff

/-- **Strings compare as their octets do.** -/
theorem compare_eq_compare_octets (a b : String) :
    compare a b = compare (octets (utf8 a)) (octets (utf8 b)) := by
  have smaller : ∀ {a b : String}, compare a b = .lt →
      compare (octets (utf8 a)) (octets (utf8 b)) = .lt := by
    intro a b less
    rw [octets_utf8, octets_utf8]
    exact compare_octets_eq_lt_iff.mpr (flatMap_utf8EncodeChar_lt
      (String.lt_iff_toList_lt.mp (Std.LawfulLTCmp.eq_lt_iff_lt.mp less)))
  cases order : compare a b with
  | lt => exact (smaller order).symm
  | eq =>
      rw [Std.LawfulEqOrd.eq_of_compare order, Std.ReflOrd.compare_self]
  | gt =>
      rw [Std.OrientedOrd.eq_swap, Ordering.swap_eq_gt] at order
      rw [Std.OrientedOrd.eq_swap, smaller order]
      rfl

end Text

end RecordFormat
