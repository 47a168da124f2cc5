import RecordFormat.Floating.Decimal

/-!
# Limits

Sizes and magnitudes that encoding and decoding accept.
-/

namespace RecordFormat

structure Limits where
  maxRecordSize : Nat
  maxListElements : Nat
  floatMagnitude : Binary64
  deriving DecidableEq, Repr

namespace Limits

/-- Records of 64 MiB, lists of 16 Mi elements, numbers up to `10 ^ 20`. -/
def standard : Limits where
  maxRecordSize := 64 * 1024 * 1024
  maxListElements := 16 * 1024 * 1024
  floatMagnitude := .powerOfTen 20

/-- Decimals are positional from `0.0001` up to sixteen digits before the point. -/
private def magnitudeStyle : Decimal.Style := ⟨-4, 15, false, .upwards⟩

def description (l : Limits) : String :=
  s!"CodecConfig \x7b max_record_size: {l.maxRecordSize}, " ++
    s!"max_list_elements: {l.maxListElements}, " ++
    s!"float_magnitude_limit: {l.floatMagnitude.text magnitudeStyle} \x7d"

end Limits

end RecordFormat
