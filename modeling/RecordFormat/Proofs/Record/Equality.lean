import RecordFormat.Proofs.Codec.Reading

/-!
# Equality of values

Two values are equal when they are the same scalar (floating point numbers bit for bit),
lists of equal items, or records of tables with one name that hold equal values under the
same numbers, however they came by them. It is an equivalence between values that can be read
at every depth.
-/

namespace RecordFormat.Value

/-- Everything inside can be read: no record fails to give its values. -/
inductive Readable : Value → Prop
  | scalar (s : Scalar) : Readable (.scalar s)
  | list {items : List Value} : (∀ v ∈ items, Readable v) → Readable (.list items)
  | group {r : Record} {m : IdMap Value} : r.values = .ok m →
      (∀ i v, m.find? i = some v → Readable v) → Readable (.group r)

/-- Equality, bit for bit. -/
inductive Equal : Value → Value → Prop
  | scalar (s : Scalar) : Equal (.scalar s) (.scalar s)
  | list {xs ys : List Value} : xs.length = ys.length →
      (∀ (i : Nat) x y, xs[i]? = some x → ys[i]? = some y → Equal x y) →
      Equal (.list xs) (.list ys)
  | group {r s : Record} {m n : IdMap Value} : r.codec.table.name = s.codec.table.name →
      r.values = .ok m → s.values = .ok n → m.ids = n.ids →
      (∀ i v w, m.find? i = some v → n.find? i = some w → Equal v w) →
      Equal (.group r) (.group s)

/-- Equality of maps of values. -/
abbrev EqualMaps (m n : IdMap Value) : Prop := IdMap.Agree Equal m n

namespace Equal

theorem list_iff {xs ys : List Value} :
    Equal (.list xs) (.list ys) ↔ List.Forall₂ Equal xs ys := by
  constructor
  · rintro (_ | ⟨length, each⟩ | _)
    refine List.forall₂_iff_get.mpr ⟨length, ?_⟩
    intro i hx hy
    exact each i _ _ (List.getElem?_eq_getElem hx) (List.getElem?_eq_getElem hy)
  · intro pairs
    refine .list pairs.length_eq ?_
    intro i x y hx hy
    rcases List.getElem?_eq_some_iff.mp hx with ⟨bx, rfl⟩
    obtain ⟨by_, rfl⟩ := List.getElem?_eq_some_iff.mp hy
    exact pairs.get bx by_

/-- Records are equal when their maps are. -/
theorem of_maps {r s : Record} {m n : IdMap Value}
    (name : r.codec.table.name = s.codec.table.name) (hr : r.values = .ok m)
    (hs : s.values = .ok n) (maps : EqualMaps m n) : Equal (.group r) (.group s) :=
  .group name hr hs maps.ids maps.values

theorem exists_maps {r s : Record} (h : Equal (.group r) (.group s)) :
    ∃ m n, r.values = .ok m ∧ s.values = .ok n ∧ EqualMaps m n := by
  cases h with
  | group _ hr hs ids values => exact ⟨_, _, hr, hs, ids, values⟩

/-- What can be read equals itself. -/
theorem refl {v : Value} (h : Readable v) : Equal v v := by
  induction h with
  | scalar s => exact .scalar s
  | list _ ih =>
      refine .list rfl ?_
      intro i x y hx hy
      rw [hx] at hy
      cases hy
      exact ih x (List.mem_of_getElem? hx)
  | group read _ ih => exact of_maps rfl read read (IdMap.Agree.refl ih)

theorem symm {v w : Value} (h : Equal v w) : Equal w v := by
  induction h with
  | scalar s => exact .scalar s
  | list length _ ih =>
      exact .list length.symm fun i x y hx hy => ih i y x hy hx
  | group name hr hs ids _ ih =>
      exact .group name.symm hs hr ids.symm fun i v w hv hw => ih i w v hw hv

theorem trans {u v w : Value} (h : Equal u v) (h' : Equal v w) : Equal u w := by
  induction h generalizing w with
  | scalar s => exact h'
  | list length _ ih =>
      cases h' with
      | list length' each' =>
          refine .list (length.trans length') ?_
          intro i x z hx hz
          rcases List.getElem?_eq_some_iff.mp hz with ⟨bound, -⟩
          have hy := List.getElem?_eq_getElem (length' ▸ bound)
          exact ih i x _ hx hy (each' i _ z hy hz)
  | group name hr hs ids values ih =>
      cases h' with
      | group name' hs' ht ids' values' =>
          rw [hs] at hs'
          cases hs'
          refine .group (name.trans name') hr ht (ids.trans ids') ?_
          intro i v w hv hw
          obtain ⟨x, hx, -⟩ := IdMap.Agree.exists_right ⟨ids, values⟩ hv
          exact ih i v x hv hx (values' i x w hx hw)

/-- A value with an equal can be read. -/
theorem readable {v w : Value} (h : Equal v w) : Readable v := by
  induction h with
  | scalar s => exact .scalar s
  | list length _ ih =>
      refine .list ?_
      intro x hx
      obtain ⟨i, bound, rfl⟩ := List.mem_iff_getElem.mp hx
      exact ih i _ _ (List.getElem?_eq_getElem bound) (List.getElem?_eq_getElem (length ▸ bound))
  | group name hr hs ids values ih =>
      refine .group hr ?_
      intro i v hv
      obtain ⟨w, hw, -⟩ := IdMap.Agree.exists_right ⟨ids, values⟩ hv
      exact ih i v w hv hw

end Equal

namespace EqualMaps

variable {k m n : IdMap Value}

theorem symm (h : EqualMaps m n) : EqualMaps n m := IdMap.Agree.symm h fun _ _ _ _ => Equal.symm

theorem trans (h : EqualMaps k m) (h' : EqualMaps m n) : EqualMaps k n :=
  IdMap.Agree.trans h h' fun _ _ _ _ _ => Equal.trans

theorem refl (h : ∀ i v, m.find? i = some v → Readable v) : EqualMaps m m :=
  IdMap.Agree.refl fun i v found => Equal.refl (h i v found)

theorem readable (h : EqualMaps m n) {i : Int16} {v : Value} (found : m.find? i = some v) :
    Readable v := by
  obtain ⟨w, -, equal⟩ := h.exists_right found
  exact equal.readable

end EqualMaps

end RecordFormat.Value
