import RecordFormat.Proofs.Record.Edits

/-!
# Computations that read one another

A computation may ask for the value of any field, and so make another computation run inside it.
`getWithin` reads a field this way, with computations running inside one another down to some depth,
and without keeping track of them. A record answers what this comes to at any depth that is enough,
and where none is, it tells that reading the field does not end (`Record.get_cases`). Reading always
ends when the derived fields can be ranked so that each asks for fields below it only
(`Record.exists_getWithin_of_ranked`).
-/

namespace RecordFormat

/-- Whatever the one gives, the other gives too. -/
def Refines {κ α : Type} (f g : κ → Option α) : Prop :=
  ∀ k x, f k = some x → g k = some x

namespace Refines

variable {κ α : Type} {f g h : κ → Option α}

theorem refl (f : κ → Option α) : Refines f f := fun _ _ given => given

theorem trans (fg : Refines f g) (gh : Refines g h) : Refines f h :=
  fun k x given => gh k x (fg k x given)

/-- Where the other gives nothing, nor does the one. -/
theorem eq_none (fg : Refines f g) {k : κ} (nothing : g k = none) : f k = none := by
  cases given : f k with
  | none => rfl
  | some x => cases nothing.symm.trans (fg k x given)

end Refines

/-- The program asks only for fields with `P`, whatever it is told. -/
def Program.Asks (P : String → Prop) : Program → Prop
  | .answer _ => True
  | .pass field => P field
  | .ask field next => P field ∧ ∀ told, (next told).Asks P

section

variable {read read' : String → Option (Except RecordError Value)} {x : Except RecordError Value}

theorem Program.run_mono (h : Refines read read') (p : Program) :
    p.run read = some x → p.run read' = some x := by
  induction p with
  | answer result => exact id
  | pass field => exact h field x
  | ask field next ih =>
    rw [run, run]
    cases told : read field with
    | none => simp
    | some y =>
      rw [h field y told]
      exact ih _

theorem Derivation.run_mono (h : Refines read read') (r : Record) (d : Derivation) :
    d.run r read = some x → d.run r read' = some x := by
  cases d with
  | const v => exact id
  | compute program => exact Program.run_mono h _

/-- A program comes to something when the fields that it asks for do. -/
theorem Program.isSome_run {P : String → Prop} (given : ∀ field, P field → (read field).isSome)
    {p : Program} (asks : p.Asks P) : (p.run read).isSome := by
  induction p with
  | answer result => rfl
  | pass field => exact given field asks
  | ask field next ih =>
    obtain ⟨told, known⟩ := Option.isSome_iff_exists.1 (given field asks.1)
    rw [run, known]
    exact ih _ (asks.2 _)

end

namespace Record

variable {r : Record} {f : Field} {name : String} {d : Derivation}
  {idle : List (String × Derivation)} {x : Except RecordError Value} {n m : Nat}
  {compute compute' : String → Option (Except RecordError Value)}

theorem readField_mono (h : Refines compute compute') :
    Refines (r.readField compute) (r.readField compute') := by
  intro f x
  unfold readField
  cases r.lookup f with
  | error e => exact id
  | ok own =>
    by_cases derived : own.isDerived = true
    · simp only [derived, if_true]
      exact h own.name x
    · simp only [derived]
      exact id

theorem readName_mono (h : Refines compute compute') :
    Refines (r.readName compute) (r.readName compute') := by
  intro name x
  unfold readName
  cases r.lookupName name with
  | error e => exact id
  | ok own => exact readField_mono h own x

theorem isSome_readField (given : (compute f.name).isSome) : (r.readField compute f).isSome := by
  unfold readField
  cases known : r.lookup f with
  | error e => rfl
  | ok own =>
    have name := (Table.eq_of_resolve? (lookup_eq_ok_iff.1 known)).2.1
    by_cases derived : own.isDerived = true
    · simpa only [derived, if_true, name] using given
    · simp [derived]

theorem isSome_readName (given : (compute name).isSome) : (r.readName compute name).isSome := by
  unfold readName
  cases known : r.lookupName name with
  | error e => rfl
  | ok own =>
    have found := lookupName_eq_ok_iff.1 known
    unfold Table.fieldByName? at found
    obtain rfl : own.name = name := by simpa using List.find?_some found
    exact isSome_readField given

theorem computation?_without (name other : String) (bound : List (String × Derivation)) :
    computation? name (without other bound) =
      if name = other then none else computation? name bound := by
  rw [computation?, computation?, without, List.find?_filter]
  by_cases same : name = other
  · rw [if_pos same, Option.map_eq_none_iff, List.find?_eq_none]
    intro e _
    simp [same]
  · rw [if_neg same]
    refine congrArg (Option.map Prod.snd) (congrArg (bound.find? ·) (funext fun e => ?_))
    by_cases named : e.1 = name
    · simp [named, same]
    · simp [named]

/-! ## The plain recursion -/

/-- The value of the derived field of a name, with computations running inside one another at most
`n` deep. -/
def deriveWithin (r : Record) : (n : Nat) → (name : String) → Option (Except RecordError Value)
  | 0, _ => none
  | n + 1, name =>
    match computation? name r.derived with
    | some d => d.run r (r.readName (r.deriveWithin n))
    | none => some (.error (.derivedNotBound r.table.name name))

/-- The value of a field, with computations running inside one another at most `n` deep. -/
def getWithin (r : Record) (n : Nat) (f : Field) : Option (Except RecordError Value) :=
  r.readField (r.deriveWithin n) f

theorem deriveWithin_of_some (h : computation? name r.derived = some d) :
    r.deriveWithin (n + 1) name = d.run r (r.readName (r.deriveWithin n)) := by
  rw [deriveWithin, h]

theorem deriveWithin_of_none (h : computation? name r.derived = none) :
    r.deriveWithin (n + 1) name = some (.error (.derivedNotBound r.table.name name)) := by
  rw [deriveWithin, h]

theorem deriveWithin_succ (r : Record) (n : Nat) :
    Refines (r.deriveWithin n) (r.deriveWithin (n + 1)) := by
  induction n with
  | zero =>
    intro name x h
    cases h
  | succ n ih =>
    intro name x
    cases bound : computation? name r.derived with
    | none =>
      rw [deriveWithin_of_none bound, deriveWithin_of_none bound]
      exact id
    | some d =>
      rw [deriveWithin_of_some bound, deriveWithin_of_some bound]
      exact d.run_mono (readName_mono ih) r

theorem deriveWithin_mono (r : Record) (h : n ≤ m) :
    Refines (r.deriveWithin n) (r.deriveWithin m) := by
  induction h with
  | refl => exact .refl _
  | step _ ih => exact ih.trans (deriveWithin_succ r _)

/-! ## Keeping track of what runs -/

/-- The computations are some of the record's. -/
def Binds (r : Record) (idle : List (String × Derivation)) : Prop :=
  Refines (fun name => computation? name idle) (fun name => computation? name r.derived)

theorem Binds.without (h : r.Binds idle) (other : String) :
    r.Binds (Record.without other idle) := by
  intro name d (found : computation? name (Record.without other idle) = some d)
  rw [computation?_without] at found
  split at found
  · cases found
  · exact h name d found

/-- What a record computes is what its computations come to, one inside the other; they never run
deeper than their number. -/
theorem deriveWithin_of_derive {idle : List (String × Derivation)} {name : String}
    {x : Except RecordError Value} (binds : r.Binds idle) (h : r.derive idle name = some x) :
    r.deriveWithin (idle.length + 1) name = some x := by
  cases found : computation? name idle with
  | none =>
    rw [derive_of_none found] at h
    split at h
    · cases h
    · next unbound =>
      rw [deriveWithin_of_none (by simpa using unbound), h]
  | some d =>
    have shorter := length_without_lt found
    rw [derive_of_some found] at h
    rw [deriveWithin_of_some (binds name d found)]
    refine d.run_mono (readName_mono fun other y computed => ?_) r h
    exact deriveWithin_mono r shorter _ _ (deriveWithin_of_derive (binds.without name) computed)
termination_by idle.length
decreasing_by exact shorter

/-- What the computations come to within a depth is what the record computes, if that depth is not
enough for any of those that are running. -/
theorem derive_of_deriveWithin (binds : r.Binds idle) (running : ∀ other,
      (computation? other r.derived).isSome → computation? other idle = none →
        r.deriveWithin n other = none)
    (h : r.deriveWithin n name = some x) : r.derive idle name = some x := by
  induction n generalizing idle name x with
  | zero => cases h
  | succ n ih =>
    have less (other : String) : r.deriveWithin (n + 1) other = none →
        r.deriveWithin n other = none := (deriveWithin_succ r n).eq_none
    cases early : r.deriveWithin n name with
    | some y =>
      obtain rfl : x = y := Option.some.inj (h.symm.trans (deriveWithin_succ r n name y early))
      exact ih binds (fun other bound busy => less other (running other bound busy)) early
    | none =>
      cases bound : computation? name r.derived with
      | none =>
        have free : computation? name idle = none := binds.eq_none bound
        rw [derive_of_none free, bound, ← h, deriveWithin_of_none bound]
        rfl
      | some d =>
        -- It is idle, because this depth is enough for it.
        have found : computation? name idle = some d := by
          cases found : computation? name idle with
          | none => cases h.symm.trans (running name (by rw [bound]; rfl) found)
          | some d' => exact (binds name d' found).symm.trans bound
        rw [derive_of_some found]
        rw [deriveWithin_of_some bound] at h
        refine d.run_mono (readName_mono fun other y computed => ?_) r h
        refine ih (binds.without name) (fun third bound busy => ?_) computed
        rw [computation?_without] at busy
        split at busy
        · next same => rw [same]; exact early
        · exact less third (running third bound busy)

theorem derive_refines (r : Record) :
    Refines (r.derive r.derived) (r.deriveWithin (r.derived.length + 1)) :=
  fun _ _ h => deriveWithin_of_derive (.refl _) h

theorem deriveWithin_refines (r : Record) (n : Nat) :
    Refines (r.deriveWithin n) (r.derive r.derived) := by
  intro name x h
  refine derive_of_deriveWithin (.refl _) (fun other bound idle => ?_) h
  rw [idle] at bound
  cases bound

/-- **A record answers what its computations come to**, to whatever depth they run inside one
another. -/
theorem get_eq_of_getWithin (h : r.getWithin n f = some x) : r.get f = x := by
  rw [get, readField_mono (deriveWithin_refines r n) f x h]
  rfl

/-- **It answers or tells that it would never answer.** No depth is enough then; otherwise the
number of its computations is. -/
theorem get_cases (r : Record) (f : Field) :
    (∃ x, r.getWithin (r.derived.length + 1) f = some x ∧ r.get f = x) ∨
      (∀ n, r.getWithin n f = none) ∧ r.get f = .error (.endless r.table.name f.name) := by
  cases read : r.readField (r.derive r.derived) f with
  | some x =>
    refine .inl ⟨x, readField_mono (derive_refines r) f x read, ?_⟩
    rw [get, read]
    rfl
  | none =>
    refine .inr ⟨fun n => ?_, ?_⟩
    · exact (readField_mono (deriveWithin_refines r n)).eq_none read
    · rw [get, read]
      rfl

/-! ## Computations that end -/

/-- Each computation asks only for fields of a lower rank. -/
def Ranked (r : Record) (rank : String → Nat) : Prop :=
  ∀ name program, computation? name r.derived = some (.compute program) →
    (program r.plain).Asks fun field => rank field < rank name

theorem Ranked.isSome_deriveWithin {rank : String → Nat} (ranked : r.Ranked rank)
    (below : rank name < n) : (r.deriveWithin n name).isSome := by
  induction n generalizing name with
  | zero => exact absurd below (Nat.not_lt_zero _)
  | succ n ih =>
    cases bound : computation? name r.derived with
    | none =>
      rw [deriveWithin_of_none bound]
      rfl
    | some d =>
      rw [deriveWithin_of_some bound]
      cases d with
      | const v => rfl
      | compute program =>
        refine Program.isSome_run (fun field lower => ?_) (ranked name program bound)
        exact isSome_readName (ih (Nat.lt_of_lt_of_le lower (Nat.le_of_lt_succ below)))

/-- **Reading ends where the computations are ranked**, as they are when they ask for stored fields
only. -/
theorem exists_getWithin_of_ranked {rank : String → Nat} (ranked : r.Ranked rank) (f : Field) :
    ∃ n x, r.getWithin n f = some x ∧ r.get f = x := by
  have given := ranked.isSome_deriveWithin (Nat.lt_succ_self (rank f.name))
  obtain ⟨x, within⟩ := Option.isSome_iff_exists.1 (isSome_readField given)
  exact ⟨_, x, within, get_eq_of_getWithin within⟩

end Record

end RecordFormat
