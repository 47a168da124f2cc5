/-!
# Maps from field numbers

A map is the list of its entries in ascending order of their numbers, so that maps with the
same entries are equal lists. `insert` and `erase` keep the order.
-/

namespace RecordFormat

/-- Entries by field number. -/
abbrev IdMap (α : Type) := List (Int16 × α)

namespace IdMap

variable {α : Type}

/-- Ascending numbers, each once. -/
def Sorted (m : IdMap α) : Prop := m.Pairwise fun a b => a.1 < b.1

/-- The value under a number. -/
def find? (m : IdMap α) (id : Int16) : Option α :=
  (List.find? (fun e => e.1 = id) m).map Prod.snd

def contains (m : IdMap α) (id : Int16) : Bool := m.any fun e => e.1 = id

def ids (m : IdMap α) : List Int16 := m.map Prod.fst

/-- Puts a value under a number, in place of the one there. -/
def insert (id : Int16) (a : α) : IdMap α → IdMap α
  | [] => [(id, a)]
  | (i, b) :: rest =>
    if id < i then (id, a) :: (i, b) :: rest
    else if id = i then (id, a) :: rest
    else (i, b) :: insert id a rest

/-- Removes what is under a number. -/
def erase (id : Int16) (m : IdMap α) : IdMap α := m.filter fun e => e.1 ≠ id

/-- Puts entries one after the other, later ones in place of earlier ones. -/
def insertAll (m : IdMap α) (entries : List (Int16 × α)) : IdMap α :=
  entries.foldl (fun m e => m.insert e.1 e.2) m

def ofList (entries : List (Int16 × α)) : IdMap α := insertAll [] entries

theorem mem_insert {id : Int16} {a : α} {m : IdMap α} {e : Int16 × α}
    (h : e ∈ m.insert id a) : e = (id, a) ∨ e ∈ m := by
  induction m with
  | nil => simpa [insert] using h
  | cons f rest ih =>
    obtain ⟨i, b⟩ := f
    rw [insert] at h
    split at h
    · simpa using h
    · split at h
      · rcases List.mem_cons.1 h with h | h
        · exact .inl h
        · exact .inr (List.mem_cons_of_mem _ h)
      · rcases List.mem_cons.1 h with h | h
        · exact .inr (h ▸ List.mem_cons_self ..)
        · exact (ih h).imp_right (List.mem_cons_of_mem _)

theorem mem_insertAll {m : IdMap α} {entries : List (Int16 × α)} {e : Int16 × α}
    (h : e ∈ m.insertAll entries) : e ∈ m ∨ e ∈ entries := by
  induction entries generalizing m with
  | nil => exact .inl h
  | cons f rest ih =>
    rcases ih (m := m.insert f.1 f.2) h with h | h
    · rcases mem_insert h with rfl | h
      · exact .inr (List.mem_cons_self ..)
      · exact .inl h
    · exact .inr (List.mem_cons_of_mem _ h)

theorem mem_of_find? {m : IdMap α} {id : Int16} {a : α} (h : m.find? id = some a) :
    (id, a) ∈ m := by
  obtain ⟨e, found, rfl⟩ := Option.map_eq_some_iff.1 h
  have key := List.find?_some found
  have mem := List.mem_of_find?_eq_some found
  simp only [decide_eq_true_eq] at key
  exact key ▸ mem

end IdMap

end RecordFormat
