import LtnTsTools.Metering
import Mathlib.Data.UInt

/-!
# Throughput

The byte meter of `throughput.c`.  A write adds to the current second, and the first write of a new
second closes the old one; a query more than two seconds behind the last write clears both.  The
rates in `double` are left out, but not what their queries do to the meter.
-/

namespace LtnTsTools.SecondMeter

open Metering

/-- `struct ltntstools_throughput_s`. -/
structure Throughput where
  byteCount : UInt64
  bpsLastUpdate : ℤ
  bps : UInt32
  bpsWindow : UInt32
deriving DecidableEq

def Throughput.zero : Throughput := ⟨0, 0, 0, 0⟩

inductive Call
  | write (byteCount : UInt32) (now : ℤ)
  | writeValue (value : Int32) (now : ℤ)
  | reset
  | getMbps (now : ℤ)
  | getBps (now : ℤ)
  | getValue (now : ℤ)

def Call.times : Call → List ℤ
  | .write _ now | .writeValue _ now | .getMbps now | .getBps now | .getValue now => [now]
  | .reset => []

/-- What a call writes or reads; a reset does neither. -/
def Call.ops : Call → List (Op ℤ UInt32)
  | .write byteCount now => [.write now byteCount]
  | .writeValue value now => [.write now value.toUInt32]
  | .reset => []
  | .getMbps now | .getBps now | .getValue now => [.read now]

end LtnTsTools.SecondMeter
