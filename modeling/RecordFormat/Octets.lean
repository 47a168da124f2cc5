/-!
# Octets and big-endian numbers

All payloads are byte arrays; `octets` views one as the list of its octets. A number is
written with its most significant octet first, in a fixed number of octets; `decode_encode`
says that reading gives the number back modulo the width.
-/

namespace RecordFormat

/-- A run of octets. -/
abbrev Bytes := ByteArray

instance : DecidableEq Bytes := ByteArray.instDecidableEq

/-- The octets of a run, first to last. -/
def octets (bytes : Bytes) : List UInt8 := bytes.data.toList

@[simp] theorem length_octets (bytes : Bytes) : (octets bytes).length = bytes.size := rfl

@[simp] theorem octets_empty : octets .empty = [] := rfl

@[simp] theorem octets_append (a b : Bytes) : octets (a ++ b) = octets a ++ octets b :=
  ByteArray.toList_data_append

@[simp] theorem octets_toByteArray (list : List UInt8) : octets list.toByteArray = list := by
  simp [octets]

theorem octets_extract (bytes : Bytes) (start stop : Nat) :
    octets (bytes.extract start stop) = ((octets bytes).drop start).take (stop - start) := by
  simp [octets, List.extract_eq_take_drop]

theorem octets_inj {a b : Bytes} : octets a = octets b ↔ a = b :=
  ⟨fun h => ByteArray.ext (Array.toList_inj.1 h), congrArg octets⟩

namespace Bytes

/-- Runs of octets one after the other. -/
def join (parts : List Bytes) : Bytes := parts.foldl (· ++ ·) .empty

private theorem foldl_append (parts : List Bytes) (start : Bytes) :
    parts.foldl (· ++ ·) start = start ++ join parts := by
  induction parts generalizing start with
  | nil => simp [join]
  | cons part rest ih =>
    rw [join, List.foldl_cons, List.foldl_cons, ih, ih (_ ++ _), ByteArray.empty_append,
      ByteArray.append_assoc]

@[simp] theorem join_nil : join [] = .empty := rfl

@[simp] theorem join_cons (part : Bytes) (rest : List Bytes) :
    join (part :: rest) = part ++ join rest := by
  rw [join, List.foldl_cons, foldl_append, ByteArray.empty_append]

@[simp] theorem join_append (first second : List Bytes) :
    join (first ++ second) = join first ++ join second := by
  rw [join, List.foldl_append, foldl_append]
  rfl

end Bytes

namespace BigEndian

/-- How many numbers have `width` octets. -/
def count : (width : Nat) → Nat
  | 0 => 1
  | w + 1 => 256 * count w

/-- The lowest `width` digits of `n` to the base 256, most significant first. -/
def digits : (width : Nat) → (n : Nat) → List UInt8
  | 0, _ => []
  | w + 1, n => UInt8.ofNat (n / count w) :: digits w n

/-- The lowest `width` octets of `n`, most significant first. -/
def encode (width n : Nat) : Bytes := (digits width n).toByteArray

/-- The number written by `bytes`, most significant octet first. -/
def decode (bytes : Bytes) : Nat :=
  (octets bytes).foldl (fun n b => n * 256 + b.toNat) 0

/-- The largest number that fits in `width` octets. -/
def maximum (width : Nat) : Nat := count width - 1

@[simp] theorem length_digits (width n : Nat) : (digits width n).length = width := by
  induction width with
  | zero => rfl
  | succ w ih => simp [digits, ih]

@[simp] theorem octets_encode (width n : Nat) : octets (encode width n) = digits width n :=
  octets_toByteArray _

@[simp] theorem size_encode (width n : Nat) : (encode width n).size = width := by
  rw [← length_octets, octets_encode, length_digits]

private theorem foldl_digits (width n start : Nat) :
    (digits width n).foldl (fun n b => n * 256 + b.toNat) start =
      start * count width + n % count width := by
  induction width generalizing start with
  | zero => simp [digits, count, Nat.mod_one]
  | succ w ih =>
    have top : (UInt8.ofNat (n / count w)).toNat = n / count w % 256 := UInt8.toNat_ofNat'
    rw [digits, List.foldl_cons, ih, top, count, Nat.mul_comm 256, Nat.mod_mul, Nat.add_mul,
      Nat.mul_assoc, Nat.mul_comm 256 (count w), Nat.mul_comm (n / count w % 256),
      Nat.add_assoc, Nat.add_comm (n % count w)]

/-- Reading what was written gives the number modulo the width. -/
theorem decode_encode (width n : Nat) : decode (encode width n) = n % count width := by
  simp [decode, foldl_digits]

end BigEndian

end RecordFormat
