import LtnTsTools.Metering
import LtnTsTools.PaddingRate
import LtnTsTools.TransportPacket
import Mathlib.Data.UInt

/-!
# Packet rates

The rates that `ltntstools_pid_stats_update` keeps of a stream and of each of its pids, under the
queries of `stats.c` that read them and clear what is out of date.  In a run whose clock does not go
back every query answers with the packets of the last busy second but one.
-/

namespace LtnTsTools.Rates

open Metering

/-! ## Updates -/

/-- A record from `ltntstools_pid_statistics_alloc`. -/
def pidRateAlloc : PidRate := ⟨0, 0, 0⟩

inductive Call
  | update (pkts : List Packet) (now : ℤ)
  | streamPps (now : ℤ)
  | streamBps (now : ℤ)
  | pidPps (pidnr : ℕ) (now : ℤ)
  | pidBps (pidnr : ℕ) (now : ℤ)
  | paddingPct (now now' : ℤ)

def Call.times : Call → List ℤ
  | .update _ now | .streamPps now | .streamBps now | .pidPps _ now | .pidBps _ now => [now]
  | .paddingPct now now' => [now, now']

def Call.streamOps : Call → List (Op ℤ UInt32)
  | .update pkts now => [.write now (UInt32.ofNat pkts.length)]
  | .streamPps now | .streamBps now | .paddingPct _ now => [.read now]
  | .pidPps _ _ | .pidBps _ _ => []

def Call.pidOps (p : ℕ) : Call → List (Op ℤ UInt32)
  | .update pkts now => (pkts.filter fun pkt ↦ Ts.pid pkt = p).map fun _ ↦ .write now 1
  | .pidPps pidnr now | .pidBps pidnr now => if pidnr &&& 0x1fff = p then [.read now] else []
  | .paddingPct now _ => if p = 0x1fff then [.read now] else []
  | .streamPps _ | .streamBps _ => []

def streamMeter (stream : StreamRate) : Meter ℤ UInt32 :=
  ⟨stream.ppsLastUpdate, stream.pps, stream.ppsWindow⟩

def pidMeter (pid : PidRate) : Meter ℤ UInt32 := ⟨pid.ppsLastUpdate, pid.pps, pid.ppsWindow⟩

def recordOf (stream : StreamRate) (p : ℕ) : PidRate := (stream.internalPids p).getD pidRateAlloc

structure Follows (stream : StreamRate) (calls : List Call) : Prop where
  bytes : stream.bpsWindow = 0
  whole : streamMeter stream = metered (After 2) true 0 (calls.flatMap Call.streamOps)
  each : ∀ p, pidMeter (recordOf stream p) =
    metered (After 2) true 0 (calls.flatMap (Call.pidOps p))

end LtnTsTools.Rates
