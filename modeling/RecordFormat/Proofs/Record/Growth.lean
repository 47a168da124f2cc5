import RecordFormat.Proofs.Record.PartialMap

/-!
# Values made from new records

A value is grown when it is made of scalars, lists and records that began new and were changed
by setting grown values. When the codecs are those of a family, which has one for each table
name, every grown record is written and read back, and every grown value that an operator of the
family accepts has the records that the operator is for.
-/

namespace RecordFormat

open Outcome
open Value (Equal Readable)

/-- Made of scalars, lists and new records of codecs in `C`, which were changed any number of
times by setting such values. -/
inductive Value.Grown (C : TableCodec → Prop) : Value → Prop
  | scalar (s : Scalar) : Grown C (.scalar s)
  | list {items : List Value} : (∀ v ∈ items, Grown C v) → Grown C (.list items)
  | empty {c : TableCodec} : C c → Grown C (.group (Record.empty c))
  | edit {r r' : Record} {e : Record.Edit} : Grown C (.group r) →
      (∀ id v, e.sets? r.table = some (id, v) → Grown C v) → e.apply r = .ok r' →
      Grown C (.group r')

theorem Value.Grown.imp {C D : TableCodec → Prop} {v : Value} (h : v.Grown C)
    (imp : ∀ c, C c → D c) : v.Grown D := by
  induction h with
  | scalar s => exact .scalar s
  | list _ ih => exact .list ih
  | empty here => exact .empty (imp _ here)
  | edit _ _ done ih inside => exact .edit ih inside done

/-- Codecs that nest only each other, one for each table name, each with slots for its table's
fields, and all with one size limit. -/
structure TableCodec.Family (limit : Nat) (C : TableCodec → Prop) : Prop where
  inside : ∀ c, C c → c.Everywhere C
  unique : ∀ c d, C c → C d → c.table.name = d.table.name → c = d
  serves : ∀ c, C c → c.Serves
  sound : ∀ c, C c → c.Sound limit
  limit_eq : ∀ c, C c → c.limits.maxRecordSize = limit

namespace Record

/-- Staged values stand in the order of their numbers, and the codec knows every field of the
buffer. -/
structure Settled (r : Record) : Prop where
  staged : IdMap.Sorted r.pending
  closed : r.Closed

theorem lasting_settled : Lasting Settled where
  wrote owns _ := ⟨IdMap.sorted_nil, fun b same => by
    cases same
    exact owns.known⟩
  kept settled buffer := ⟨IdMap.sorted_nil, fun b same => by
    cases same
    exact settled.closed _ buffer⟩

variable {P : Record → Prop} {c : TableCodec} {r : Record} {M : PartialMap}

theorem Tracks.settled (h : Tracks P c r M) : r.Settled where
  staged := h.staged
  closed b buffer := by
    rw [h.codec]
    exact (h.owns b buffer).known

/-- A record that is followed is one that its codec's operator is for. -/
theorem Tracks.holds (h : Tracks P c r M) (here : P r) : (Operator.group c).Holds P (.group r) := by
  obtain ⟨rfl, -, -, m, read, fitting, same⟩ := h
  refine .group here read ?_ fitting
  intro i v found
  have rel := same i
  rw [found] at rel
  generalize M i = x at rel
  cases rel with
  | some equal => exact equal.symm.readable

end Record

namespace TableCodec.Family

variable {limit : Nat} {C : TableCodec → Prop} {c : TableCodec}

theorem everywhere_sound (family : Family limit C) (hc : C c) :
    c.Everywhere (Sound c.limits.maxRecordSize) := by
  rw [family.limit_eq c hc]
  exact (family.inside c hc).imp family.sound

/-- An operator of the family takes records of its own codec only. -/
theorem codec_eq (family : Family limit C) {op : Operator} {r : Record} (inside : op.Everywhere C)
    (own : C r.codec) (accepted : op.accepts (.group r) = true) : op = .group r.codec := by
  cases inside with
  | @group codec here _ =>
      rw [Operator.accepts, Bool.and_eq_true, decide_eq_true_eq] at accepted
      rw [family.unique _ _ own here accepted.1]
  | fixed | string | binary | list => simp [Operator.accepts] at accepted

/-- **Grown values are followed**: a grown record is of a codec of the family and keeps a map of
values, and where an operator of the family accepts a grown value, the records inside are those
that the operator is for. -/
theorem of_grown (family : Family limit C) {v : Value} (grown : v.Grown C) :
    (∀ r, v = .group r → C r.codec ∧ ∃ M, Record.Tracks Record.Settled r.codec r M) ∧
      ∀ op : Operator, op.Everywhere C → op.accepts v = true → op.Holds Record.Settled v := by
  -- For a record, the second half follows from the first.
  have fits : ∀ r M, C r.codec → Record.Tracks Record.Settled r.codec r M → ∀ op : Operator,
      op.Everywhere C → op.accepts (.group r) = true → op.Holds Record.Settled (.group r) := by
    intro r M own tracks op inside accepted
    rw [family.codec_eq inside own accepted]
    exact tracks.holds tracks.settled
  induction grown with
  | scalar s =>
      refine ⟨by simp, ?_⟩
      intro op _ accepted
      cases op with
      | fixed kind bound => exact .fixed kind bound s
      | string => exact .string s
      | binary => exact .binary s
      | group | list => simp [Operator.accepts] at accepted
  | list _ ih =>
      refine ⟨by simp, ?_⟩
      intro op inside accepted
      cases inside with
      | list inside =>
          rw [Operator.accepts, Bool.and_eq_true, List.all_eq_true] at accepted
          exact .list fun x hx => (ih x hx).2 _ inside (accepted.2 x hx)
      | fixed | string | binary | group => simp [Operator.accepts] at accepted
  | @empty c here =>
      have tracks : Record.Tracks Record.Settled c (Record.empty c) fun _ => none := .empty c
      refine ⟨?_, fits _ _ here tracks⟩
      rintro _ ⟨rfl⟩
      exact ⟨here, _, tracks⟩
  | @edit r r' e _ _ done ih values =>
      obtain ⟨own, M, tracks⟩ := ih.1 r rfl
      -- What is set meets an operator of the family, for codecs nest only each other.
      have fitting : e.Fits (fun op v => op.accepts v = true → op.Holds Record.Settled v)
          r.codec := by
        intro id v op sets known accepted
        rcases Option.map_eq_some_iff.mp known with ⟨s, slot, rfl⟩
        have inside := (family.inside _ own).slot (TableCodec.mem_of_slot? slot)
        exact (values id v sets).2 _ inside accepted
      have next := tracks.edited (family.serves _ own) Record.lasting_settled
        (family.everywhere_sound own) fitting done
      have codec : r'.codec = r.codec := next.codec
      rw [← codec] at own next
      refine ⟨?_, fits _ _ own next⟩
      rintro _ ⟨rfl⟩
      exact ⟨own, _, next⟩

end TableCodec.Family

end RecordFormat
