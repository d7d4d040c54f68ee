import NdpiObserve.Daemon.FlowTable
import NdpiObserve.Daemon.DnsCache
import NdpiObserve.Daemon.Services

/-!
# The packet and its features

What `ndpi_engine_process` computes from the captured bytes of an event: the local copy that
nDPI is given, with its length fields clamped to the capture, and the features that the model
and the feature dump read.

## Main definitions

* `patchPacket`, `patchedPacket`: the clamps of the IP and TLS lengths.
* `mlAccumulate`, `mlFeatures`, `dumpFeatureRow`: the feature accumulators and their two readers.
-/

namespace NdpiObserve

/-! ### The packet given to nDPI -/

/-- The packet after the clamps of the IP total length and of the TLS record length. `view`
reads a byte of the local copy `mem`; `len` bytes of it were captured. -/
def patchPacket (view : (ℕ → UInt8) → Reader) (mem : ℕ → UInt8) (len : UInt16) (proto : UInt8) :
    Except ReadFault (ℕ → UInt8) := do
  let b2 ← view mem 2
  let b3 ← view mem 3
  let mem :=
    if be16 b2 b3 > len then
      Function.update (Function.update mem 2 (len >>> 8).toUInt8) 3 (len &&& 0xFF).toUInt8
    else mem
  if proto = 6 then do
    let b0 ← view mem 0
    let ihl : UInt8 := (b0 &&& 0xf) * 4
    let b12 ← view mem (ihl.toNat + 12)
    let doff : UInt8 := (b12 >>> 4) * 4
    let l7off : UInt16 := ihl.toUInt16 + doff.toUInt16
    if l7off.toNat + 5 ≤ len.toNat then do
      let kind ← view mem l7off.toNat
      if kind = 0x16 then do
        let r3 ← view mem (l7off.toNat + 3)
        let r4 ← view mem (l7off.toNat + 4)
        let avail : UInt16 := len - l7off - 5
        if be16 r3 r4 > avail then
          .ok (Function.update (Function.update mem (l7off.toNat + 3) (avail >>> 8).toUInt8)
            (l7off.toNat + 4) (avail &&& 0xFF).toUInt8)
        else .ok mem
      else .ok mem
    else .ok mem
  else .ok mem

/-- The local copy before patching: the captured bytes, then what the stack held. -/
def localCopy (evt : FlowEvent) (stack : ℕ → UInt8) : ℕ → UInt8 :=
  fun i => if i < evt.actualDataLen.toNat then evt.pktData i else stack i

/-- The bytes that `ndpi_detection_process_packet` receives. -/
def patchedPacket (evt : FlowEvent) (stack : ℕ → UInt8) : Bytes :=
  match patchPacket memoryReader (localCopy evt stack) evt.actualDataLen evt.key.proto with
  | .ok mem => (List.range evt.actualDataLen.toNat).map mem
  | .error _ => []

/-! ### Features -/

/-- The accumulation of the ML features of one packet. -/
def mlAccumulate (evt : FlowEvent) (f : FlowEntry) : FlowEntry :=
  let pktLen : UInt16 := if evt.pktLen > 0xFFFF then 0xFFFF else evt.pktLen.toUInt16
  let len : ℚ := pktLen.toNat
  let f :=
    if f.mlNPkts = 0 then
      { f with
        mlFirstPkt := pktLen, mlPktMin := pktLen, mlPktMax := pktLen, mlIatMin := 10 ^ 30
        mlIatMax := 0 }
    else
      let iat := f.lastSeen - f.mlLastPktTime
      { f with
        mlIatSum := f.mlIatSum + iat
        mlIatSq := f.mlIatSq + iat * iat
        mlIatMin := if iat < f.mlIatMin then iat else f.mlIatMin
        mlIatMax := if iat > f.mlIatMax then iat else f.mlIatMax }
  { f with
    mlPktSum := f.mlPktSum + len
    mlPktSq := f.mlPktSq + len * len
    mlPktMin := if pktLen < f.mlPktMin then pktLen else f.mlPktMin
    mlPktMax := if pktLen > f.mlPktMax then pktLen else f.mlPktMax
    mlLastPkt := pktLen
    mlLastPktTime := f.lastSeen
    mlNPkts := f.mlNPkts + 1 }

/-- The entry without the feature accumulators. -/
def FlowEntry.plain (f : FlowEntry) : FlowEntry :=
  { f with
    mlPktSum := 0, mlPktSq := 0, mlPktMin := 0, mlPktMax := 0, mlFirstPkt := 0, mlLastPkt := 0
    mlIatSum := 0, mlIatSq := 0, mlIatMin := 0, mlIatMax := 0, mlLastPktTime := 0, mlNPkts := 0 }

/-- Accumulating changes nothing but the accumulators. -/
theorem mlAccumulate_plain (evt : FlowEvent) (f : FlowEntry) :
    (mlAccumulate evt f).plain = f.plain := by
  dsimp only [mlAccumulate]
  split <;> rfl

/-- The features passed to `ndpi_ml_classify`. -/
def mlFeatures (env : Env) (k : FlowKey) (f : FlowEntry) : NdpiMlFeatures :=
  let n : ℚ := f.mlNPkts.toNat
  let iatN : ℚ := if n > 1 then n - 1 else 1
  let pktMean := f.mlPktSum / n
  let iatMean := f.mlIatSum / iatN
  let pktVar := f.mlPktSq / n - pktMean * pktMean
  let iatVar := if n > 2 then f.mlIatSq / iatN - iatMean * iatMean else 0
  { pktLenMean := pktMean
    pktLenStd := if pktVar > 0 then env.sqrtf pktVar else 0
    pktLenMin := f.mlPktMin.toNat
    pktLenMax := f.mlPktMax.toNat
    pktLenTotal := f.mlPktSum
    iatMeanS := iatMean
    iatStdS := if iatVar > 0 then env.sqrtf iatVar else 0
    iatMinS := if n > 1 then f.mlIatMin else 0
    iatMaxS := f.mlIatMax
    durationS := f.lastSeen - f.firstSeen
    nPkts := n
    proto := k.proto.toNat
    dport := (ntohs k.dstPort).toNat
    firstPktLen := f.mlFirstPkt.toNat
    lastPktLen := f.mlLastPkt.toNat }

/-- The numbers of the row that the feature dump writes. -/
def dumpFeatureRow (env : Env) (k : FlowKey) (f : FlowEntry) : NdpiMlFeatures :=
  let n : ℚ := f.mlNPkts.toNat
  let iatN : ℚ := if n > 1 then n - 1 else 1
  let pktMean := f.mlPktSum / n
  let iatMean := f.mlIatSum / iatN
  let pktVar := f.mlPktSq / n - pktMean * pktMean
  let iatVar := if n > 2 then f.mlIatSq / iatN - iatMean * iatMean else 0
  let pktStd := if pktVar > 0 then env.sqrtf pktVar else 0
  let iatStd := if iatVar > 0 then env.sqrtf iatVar else 0
  let iatMin := if n > 1 then f.mlIatMin else 0
  let duration := f.lastSeen - f.firstSeen
  { pktLenMean := pktMean, pktLenStd := pktStd
    pktLenMin := f.mlPktMin.toNat, pktLenMax := f.mlPktMax.toNat, pktLenTotal := f.mlPktSum
    iatMeanS := iatMean, iatStdS := iatStd, iatMinS := iatMin, iatMaxS := f.mlIatMax
    durationS := duration, nPkts := n
    proto := k.proto.toNat, dport := (ntohs k.dstPort).toNat
    firstPktLen := f.mlFirstPkt.toNat, lastPktLen := f.mlLastPkt.toNat }

end NdpiObserve
