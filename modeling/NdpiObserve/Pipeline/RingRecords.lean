import NdpiObserve.Kernel.FrontEnds
import NdpiObserve.Library.Memory
import NdpiObserve.Pipeline.PacketLedger

/-!
# The records of the ring buffer

Both sides again, with the bytes of the records in the ring buffer: `send_to_ringbuf` stores the
fields of an event into the memory that it has reserved, and `ring_buf_cb`, some time later, takes
the address of a record for that of an event, if the record is long enough. What is behind the
record in memory has changed in between. Every run of this kind is a run on events, in which only
the bytes that were not captured are chosen for the occasion.

## Main definitions

* `FlowEvent.ofMemory`: the event at an address.
* `sendRecord`, `ringBufCb`: `send_to_ringbuf` and `ring_buf_cb` on bytes.
* `RecordPipeline`: the kernel's maps, the records, the daemon and its main loop.

## Main results

* `ofMemory_sendRecord`: the event at the address of a record that was sent.
* `RecordPipeline.records_run`: runs on records are runs on events.
-/

namespace NdpiObserve

open Machine Memory

/-! ### The layout of an event -/

/-- The bytes of a 64-bit field in memory. -/
def bytes64 (x : UInt64) : Bytes := bytes32 x.toUInt32 ++ bytes32 (x >>> 32).toUInt32

def ofBytes16 : Bytes → UInt16
  | [a, b] => load16 a b
  | _ => 0

def ofBytes32 : Bytes → UInt32
  | [a, b, c, d] => load32 a b c d
  | _ => 0

def ofBytes64 (b : Bytes) : UInt64 :=
  (ofBytes32 (b.take 4)).toUInt64 ||| (ofBytes32 (b.drop 4)).toUInt64 <<< 32

theorem ofBytes16_bytes16 (x : UInt16) : ofBytes16 (bytes16 x) = x := by
  have hswap : load16 x.toUInt8 (x >>> 8).toUInt8 = be16 (x >>> 8).toUInt8 x.toUInt8 :=
    UInt16.or_comm _ _
  exact hswap.trans (be16_bytes x)

theorem ofBytes32_bytes32 (x : UInt32) : ofBytes32 (bytes32 x) = x := load32_bytes x

theorem ofBytes64_bytes64 (x : UInt64) : ofBytes64 (bytes64 x) = x := by
  have hlow : ofBytes32 ((bytes64 x).take 4) = x.toUInt32 := ofBytes32_bytes32 _
  have hhigh : ofBytes32 ((bytes64 x).drop 4) = (x >>> 32).toUInt32 := ofBytes32_bytes32 _
  have hx := x.toNat_lt
  rw [ofBytes64, hlow, hhigh]
  refine UInt64.toNat_inj.mp ?_
  simp only [UInt64.toNat_or, UInt64.toNat_shiftLeft, UInt32.toNat_toUInt64, UInt64.toNat_toUInt32,
    UInt64.toNat_shiftRight, Nat.shiftRight_eq_div_pow, UInt64.reduceToNat, Nat.reduceMod,
    Nat.shiftLeft_eq]
  rw [Nat.mod_eq_of_lt (b := 2 ^ 64) (by omega), mul_comm, Nat.or_comm,
    ← Nat.two_pow_add_eq_or_of_lt (Nat.mod_lt _ (by norm_num))]
  omega

/-- The key with these bytes in memory. -/
def FlowKey.ofBytes (b : Bytes) : FlowKey where
  srcIp := ofBytes32 (b.take 4)
  dstIp := ofBytes32 ((b.drop 4).take 4)
  srcPort := ofBytes16 ((b.drop 8).take 2)
  dstPort := ofBytes16 ((b.drop 10).take 2)
  proto := b.getD 12 0
  pad0 := b.getD 13 0
  pad1 := b.getD 14 0
  pad2 := b.getD 15 0

theorem FlowKey.ofBytes_toBytes (k : FlowKey) : ofBytes k.toBytes = k := by
  cases k with
  | mk srcIp dstIp srcPort dstPort proto pad0 pad1 pad2 =>
    rw [mk.injEq]
    exact ⟨ofBytes32_bytes32 _, ofBytes32_bytes32 _, ofBytes16_bytes16 _, ofBytes16_bytes16 _,
      rfl, rfl, rfl, rfl⟩

/-- `sizeof(struct ndpi_obs_flow_event)`: the key, `pkt_data`, two 32-bit fields and a 64-bit
field. -/
def flowEventSize : ℕ := 16 + flowEventDataLen + 4 + 4 + 8

/-- The event at an address: `key` at the offset 0, `pkt_data` at 16, `pkt_len` at 528, `data_len`
at 532 and `ts_ns` at 536. -/
def FlowEvent.ofMemory (mem : ℕ → UInt8) : FlowEvent where
  key := FlowKey.ofBytes (loadAt mem 0 16)
  pktData i := mem (16 + i)
  pktLen := ofBytes32 (loadAt mem 528 4)
  dataLen := ofBytes32 (loadAt mem 532 4)
  tsNs := ofBytes64 (loadAt mem 536 8)

/-! ### The records -/

/-- `send_to_ringbuf` on the memory that was reserved. A load that fails writes nothing. -/
def sendRecord (s : Skb) (key : FlowKey) (ipOff : ℕ) (pktLen : UInt16) (ts : UInt64)
    (mem : ℕ → UInt8) : ℕ → UInt8 :=
  let evt := storeAt mem 0 key.toBytes
  let evt := storeAt evt 536 (bytes64 ts)
  let evt := storeAt evt 528 (bytes32 pktLen.toUInt32)
  match captureTier s ipOff with
  | some n =>
    let evt := storeAt evt 16 (loadAt s.byte ipOff n)
    storeAt evt 532 (bytes32 (UInt32.ofNat n))
  | none => storeAt evt 532 (bytes32 (noData ||| (UInt32.ofNat s.len &&& 0xFFFF)))

/-- A record in the ring buffer: its size, and the memory at its address. -/
structure RingRecord where
  size : ℕ
  mem : ℕ → UInt8

/-- `ring_buf_cb`: the event that it hands to `ndpi_engine_process`, with what is behind the record
by then. -/
def RingRecord.ringBufCb (r : RingRecord) (behind : ℕ → UInt8) : Option FlowEvent :=
  if r.size < flowEventSize then none
  else some (FlowEvent.ofMemory fun i => if i < r.size then r.mem i else behind i)

section Sent

variable (s : Skb) (key : FlowKey) (ipOff : ℕ) (pktLen : UInt16) (ts : UInt64) (old : ℕ → UInt8)

/-- The fields that do not depend on what was captured. -/
theorem loadAt_sendRecord :
    loadAt (sendRecord s key ipOff pktLen ts old) 0 16 = key.toBytes ∧
      loadAt (sendRecord s key ipOff pktLen ts old) 528 4 = bytes32 pktLen.toUInt32 ∧
      loadAt (sendRecord s key ipOff pktLen ts old) 536 8 = bytes64 ts := by
  have hkey : key.toBytes.length = 16 := rfl
  have hword (x : UInt32) : (bytes32 x).length = 4 := rfl
  have hlong : (bytes64 ts).length = 8 := rfl
  have hself (mem : ℕ → UInt8) (off : ℕ) {b : Bytes} {n : ℕ} (hb : b.length = n) :
      loadAt (storeAt mem off b) off n = b := hb ▸ loadAt_storeAt_self mem off b
  rw [sendRecord]
  cases htier : captureTier s ipOff with
  | none =>
    dsimp only
    refine ⟨?_, ?_, ?_⟩
    · rw [loadAt_storeAt_before _ _ (by decide), loadAt_storeAt_before _ _ (by decide),
        loadAt_storeAt_before _ _ (by decide), hself _ _ hkey]
    · rw [loadAt_storeAt_before _ _ (by decide), hself _ _ (hword _)]
    · rw [loadAt_storeAt_behind _ (by rw [hword]),
        loadAt_storeAt_behind _ (by rw [hword]; decide), hself _ _ hlong]
  | some n =>
    have hn : n ≤ 512 := (captureTier_le htier).2
    have hdata := length_loadAt s.byte ipOff n
    dsimp only
    refine ⟨?_, ?_, ?_⟩
    · rw [loadAt_storeAt_before _ _ (by decide), loadAt_storeAt_before _ _ (by decide),
        loadAt_storeAt_before _ _ (by decide), loadAt_storeAt_before _ _ (by decide),
        hself _ _ hkey]
    · rw [loadAt_storeAt_before _ _ (by decide), loadAt_storeAt_behind _ (by omega),
        hself _ _ (hword _)]
    · rw [loadAt_storeAt_behind _ (by rw [hword]), loadAt_storeAt_behind _ (by omega),
        loadAt_storeAt_behind _ (by rw [hword]; decide), hself _ _ hlong]

/-- The captured bytes and their number. -/
theorem loadAt_sendRecord_of_some {n : ℕ} (h : captureTier s ipOff = some n) :
    loadAt (sendRecord s key ipOff pktLen ts old) 532 4 = bytes32 (UInt32.ofNat n) ∧
      ∀ i < n, sendRecord s key ipOff pktLen ts old (16 + i) = s.byte (ipOff + i) := by
  have hn : n ≤ 512 := (captureTier_le h).2
  rw [sendRecord, h]
  refine ⟨loadAt_storeAt_self _ _ _, fun i hi => ?_⟩
  have hdata : i < (loadAt s.byte ipOff n).length := by rwa [length_loadAt]
  dsimp only
  rw [storeAt_of_lt (by omega), storeAt_add hdata, getElem_loadAt]

theorem loadAt_sendRecord_of_none (h : captureTier s ipOff = none) :
    loadAt (sendRecord s key ipOff pktLen ts old) 532 4 =
      bytes32 (noData ||| (UInt32.ofNat s.len &&& 0xFFFF)) := by
  rw [sendRecord, h]
  exact loadAt_storeAt_self _ _ _

/-- **What is sent is read.** The event at the address of a record is that of `sendToRingbuf`,
whatever was in the record before and is behind it now. -/
theorem ofMemory_sendRecord {mem : ℕ → UInt8}
    (h : ∀ i < flowEventSize, mem i = sendRecord s key ipOff pktLen ts old i) :
    FlowEvent.ofMemory mem =
      sendToRingbuf s key ipOff pktLen ts (FlowEvent.ofMemory mem).pktData := by
  have hload (off n : ℕ) (hle : off + n ≤ flowEventSize) :
      loadAt mem off n = loadAt (sendRecord s key ipOff pktLen ts old) off n :=
    loadAt_congr fun i hi => h _ (by omega)
  obtain ⟨hkey, hpktLen, hts⟩ := loadAt_sendRecord s key ipOff pktLen ts old
  rw [FlowEvent.ofMemory, hload 0 16 (by decide), hload 528 4 (by decide), hload 532 4 (by decide),
    hload 536 8 (by decide), hkey, FlowKey.ofBytes_toBytes, hpktLen, ofBytes32_bytes32, hts,
    ofBytes64_bytes64, sendToRingbuf]
  cases htier : captureTier s ipOff with
  | none =>
    rw [loadAt_sendRecord_of_none s key ipOff pktLen ts old htier, ofBytes32_bytes32]
  | some n =>
    have hn : n ≤ 512 := (captureTier_le htier).2
    obtain ⟨hdataLen, hdata⟩ := loadAt_sendRecord_of_some s key ipOff pktLen ts old htier
    rw [hdataLen, ofBytes32_bytes32]
    dsimp only
    congr 1
    funext i
    split
    case isTrue hi => rw [h _ (by rw [flowEventSize, flowEventDataLen]; omega), hdata i hi]
    case isFalse => rfl

end Sent

/-- Nothing of an old record is in the fields of a new one. -/
example :
    (FlowEvent.ofMemory (sendRecord udpPkt.skb udpKey ethHlen 60 7 fun _ => 0xFF)).key = udpKey ∧
      (FlowEvent.ofMemory (sendRecord udpPkt.skb udpKey ethHlen 60 7 fun _ => 0xFF)).tsNs = 7 := by
  decide +kernel

/-! ### Both sides -/

/-- The kernel's maps, the records from the oldest on, the daemon and its main loop. -/
structure RecordPipeline where
  kernel : Kernel := {}
  ring : List RingRecord := []
  daemon : EngineRun
  phase : LoopPhase := .draining

/-- The steps of both sides. -/
inductive RecordOp where
  /-- The kernel program runs on a packet; a record that it reserves holds `old`. -/
  | packet (p : Pkt) (old : ℕ → UInt8)
  /-- `ring_buf_cb` is called with the oldest record, and `behind` is behind it. -/
  | deliver (a : Answers) (behind : ℕ → UInt8)
  | drained
  | age (now : ℤ)
  | loop

/-- The record of a packet, when the ring buffer has room for it. -/
def Pkt.record (p : Pkt) (key : FlowKey) (ipTot : UInt16) (old : ℕ → UInt8) : Option RingRecord :=
  if p.reserve then some ⟨flowEventSize, sendRecord p.skb key ethHlen ipTot p.ts old⟩ else none

namespace RecordPipeline

/-- Both sides when the main loop starts. -/
def start (iface : Bytes) (ml dump : Bool) : RecordPipeline :=
  { daemon := EngineRun.start iface ml dump }

/-- `process_pkt`. -/
def processPkt (w : RecordPipeline) (p : Pkt) (old : ℕ → UInt8) : RecordPipeline :=
  match parsePkt p.skb with
  | none => w
  | some (key, ipTot) =>
    let r := processFlow w.kernel p key none
    let record :=
      match r.2 with
      | .ring _ => p.record key ipTot old
      | .counted _ => none
    { w with kernel := r.1, ring := w.ring ++ record.toList }

/-- The call of `ring_buf_cb` on the record that has left the ring buffer. -/
def handle (env : Env) (fd : ℤ) (w : RecordPipeline) (record : RingRecord) (a : Answers)
    (behind : ℕ → UInt8) : RecordPipeline :=
  match record.ringBufCb behind with
  | none => w
  | some evt =>
    let effects := (ndpiEngineProcess env w.daemon.engine evt fd a).2
    { w with
      daemon := w.daemon.step env (.process evt fd a)
      kernel := effects.foldl Kernel.receive w.kernel }

/-- One step; `fd` is `verdict_fd`. -/
def next (env : Env) (fd : ℤ) (w : RecordPipeline) : RecordOp → RecordPipeline
  | .packet p old => w.processPkt p old
  | .deliver a behind =>
    match w.phase, w.ring with
    | .draining, record :: rest => { w with ring := rest }.handle env fd record a behind
    | _, _ => w
  | .drained => if w.ring = [] then { w with phase := .serving } else w
  | .age now =>
    if w.phase = .serving then { w with daemon := w.daemon.step env (.age now) } else w
  | .loop => { w with phase := .draining }

end RecordPipeline

/-! ### Events for records -/

/-- The step on events is that on records, with bytes of its own for what was not captured. -/
inductive RecordOp.Sees : RecordOp → PipelineOp → Prop
  | packet (p : Pkt) (old stale : ℕ → UInt8) :
      Sees (.packet p old) (.packet { p with stale := stale })
  | deliver (a : Answers) (behind : ℕ → UInt8) : Sees (.deliver a behind) (.deliver a)
  | drained : Sees .drained .drained
  | age (now : ℤ) : Sees (.age now) (.age now)
  | loop : Sees .loop .loop

/-- The event can be read at the address of the record. -/
def RingRecord.Reads (r : RingRecord) (evt : FlowEvent) : Prop :=
  ∃ behind, r.ringBufCb behind = some evt

namespace RecordPipeline

/-- The two pipelines agree, up to what is behind the records. -/
structure Shows (w : RecordPipeline) (v : Pipeline) : Prop where
  kernel : v.kernel = w.kernel
  ring : List.Forall₂ RingRecord.Reads w.ring v.ring
  daemon : v.daemon = w.daemon
  phase : v.phase = w.phase

/-- The ring buffer holds records of events. -/
def Whole (w : RecordPipeline) : Prop := ∀ r ∈ w.ring, r.size = flowEventSize

end RecordPipeline

theorem RingRecord.exists_reads {r : RingRecord} (h : r.size = flowEventSize) :
    ∃ evt, r.Reads evt :=
  ⟨_, fun _ => 0, if_neg (by rw [h]; exact lt_irrefl _)⟩

theorem Pkt.event_of_record_eq_none {p : Pkt} {key : FlowKey} {ipTot : UInt16} {old : ℕ → UInt8}
    (h : p.record key ipTot old = none) (stale : ℕ → UInt8) :
    ({ p with stale := stale } : Pkt).event key ipTot = none := by
  rw [record] at h
  split at h
  case isTrue => cases h
  case isFalse hreserve => exact if_neg hreserve

/-- The event at the address of the record of a packet. -/
theorem Pkt.event_of_record {p : Pkt} {key : FlowKey} {ipTot : UInt16} {old : ℕ → UInt8}
    {r : RingRecord} (hr : p.record key ipTot old = some r) {evt : FlowEvent} (h : r.Reads evt) :
    ({ p with stale := evt.pktData } : Pkt).event key ipTot = some evt := by
  rw [record] at hr
  split at hr
  case isFalse => cases hr
  case isTrue hreserve =>
    obtain rfl := Option.some.inj hr
    obtain ⟨behind, hread⟩ := h
    rw [RingRecord.ringBufCb, if_neg (lt_irrefl _)] at hread
    obtain rfl := Option.some.inj hread
    rw [event, if_pos hreserve]
    exact congrArg some (ofMemory_sendRecord p.skb key ethHlen ipTot p.ts old
      fun i hi => if_pos hi).symm

theorem forall₂_append_left {α β : Type*} {R : α → β → Prop} {l l' : List α} {u : List β}
    (h : List.Forall₂ R (l ++ l') u) :
    ∃ v v', List.Forall₂ R l v ∧ List.Forall₂ R l' v' ∧ u = v ++ v' := by
  refine ⟨u.take l.length, u.drop l.length, ?_, ?_, (List.take_append_drop _ _).symm⟩
  · simpa using List.forall₂_take l.length h
  · simpa using List.forall₂_drop l.length h

/-- The event goes through `process_pkt` unseen. -/
theorem processFlow_eq (s : Kernel) (p : Pkt) (k : FlowKey) (evt : Option FlowEvent) :
    processFlow s p k evt = ((processFlow s p k none).1,
      match (processFlow s p k none).2 with
      | .ring _ => .ring evt
      | .counted app => .counted app) := by
  unfold processFlow
  cases s.flowMap.lookup k with
  | none => rfl
  | some fs =>
    dsimp only
    split
    · rfl
    · split
      · rfl
      · split <;> rfl

namespace RecordPipeline

variable {env : Env} {fd : ℤ} {w : RecordPipeline} {v v' : Pipeline}

/-- A packet on the side of the events. -/
theorem pipeline_packet (v : Pipeline) {p : Pkt} (stale : ℕ → UInt8) {key : FlowKey}
    {ipTot : UInt16} (h : parsePkt p.skb = some (key, ipTot)) :
    v.next env fd (.packet { p with stale := stale }) =
      { v with
        kernel := (processFlow v.kernel p key none).1
        ring := v.ring ++ (match (processFlow v.kernel p key none).2 with
          | .ring _ => ({ p with stale := stale } : Pkt).event key ipTot
          | .counted _ => none).toList } := by
  let p' : Pkt := { p with stale := stale }
  have hpkt : NdpiObserve.processPkt v.kernel p' =
      ((processFlow v.kernel p key (p'.event key ipTot)).1,
        some ⟨key, p.cpu, p.bytes, (processFlow v.kernel p key (p'.event key ipTot)).2⟩) :=
    processPkt_of_some (p := p') h
  rw [Pipeline.next, Pipeline.step, hpkt, processFlow_eq]
  cases (processFlow v.kernel p key none).2 <;> rfl

/-- The event of a record that was sent gives the bytes that were not captured. -/
theorem exists_stale {p : Pkt} {key : FlowKey} {ipTot : UInt16} {old : ℕ → UInt8} {path : PktPath}
    {events : List FlowEvent}
    (h : List.Forall₂ RingRecord.Reads (match path with
      | .ring _ => p.record key ipTot old
      | .counted _ => none).toList events) :
    ∃ stale : ℕ → UInt8, events = (match path with
      | .ring _ => ({ p with stale := stale } : Pkt).event key ipTot
      | .counted _ => none).toList := by
  cases path with
  | counted app => exact ⟨p.stale, List.forall₂_nil_left_iff.mp h⟩
  | ring e =>
    dsimp only at h ⊢
    cases hrecord : p.record key ipTot old with
    | none =>
      rw [hrecord] at h
      refine ⟨p.stale, ?_⟩
      rw [Pkt.event_of_record_eq_none hrecord]
      exact List.forall₂_nil_left_iff.mp h
    | some r =>
      rw [hrecord] at h
      obtain ⟨evt, rest, hread, hnil, rfl⟩ := List.forall₂_cons_left_iff.mp h
      obtain rfl := List.forall₂_nil_left_iff.mp hnil
      exact ⟨evt.pktData, by rw [Pkt.event_of_record hrecord hread]; rfl⟩

theorem packet_sees {p : Pkt} {old : ℕ → UInt8} (h : (w.processPkt p old).Shows v') :
    ∃ v op, w.Shows v ∧ RecordOp.Sees (.packet p old) op ∧ v.next env fd op = v' := by
  rw [RecordPipeline.processPkt] at h
  cases hparse : parsePkt p.skb with
  | none =>
    rw [hparse] at h
    refine ⟨v', _, h, .packet p old p.stale, ?_⟩
    rw [Pipeline.next, Pipeline.step, processPkt_of_none hparse]
    exact congrArg (fun r => { v' with ring := r }) (List.append_nil v'.ring)
  | some r =>
    obtain ⟨key, ipTot⟩ := r
    rw [hparse] at h
    dsimp only at h
    obtain ⟨hkernel, hring, hdaemon, hphase⟩ := h
    dsimp only at hkernel hring hdaemon hphase
    obtain ⟨events, rest, hbefore, hrest, heq⟩ := forall₂_append_left hring
    obtain ⟨stale, hlast⟩ := exists_stale hrest
    refine ⟨{ v' with kernel := w.kernel, ring := events }, _, ⟨rfl, hbefore, hdaemon, hphase⟩,
      .packet p old stale, ?_⟩
    rw [pipeline_packet _ _ hparse]
    dsimp only
    rw [← hlast, ← heq, ← hkernel]

theorem deliver_sees {record : RingRecord} {rest : List RingRecord} {a : Answers}
    {behind : ℕ → UInt8} (hphase : w.phase = .draining) (hring : w.ring = record :: rest)
    (hwhole : w.Whole) (h : ({ w with ring := rest }.handle env fd record a behind).Shows v') :
    ∃ v, w.Shows v ∧ v.next env fd (.deliver a) = v' := by
  have hsize : record.size = flowEventSize := hwhole record (hring ▸ List.mem_cons_self)
  rw [handle, RingRecord.ringBufCb, if_neg (by rw [hsize]; exact lt_irrefl _)] at h
  generalize hevt : FlowEvent.ofMemory (fun i => if i < record.size then record.mem i else behind i)
    = evt at h
  obtain ⟨hkernel, hrest, hdaemon, hphase'⟩ := h
  dsimp only at hkernel hrest hdaemon hphase'
  have hread : record.Reads evt :=
    ⟨behind, by rw [RingRecord.ringBufCb, if_neg (by rw [hsize]; exact lt_irrefl _), hevt]⟩
  refine ⟨{ kernel := w.kernel, ring := evt :: v'.ring, daemon := w.daemon, phase := w.phase },
    ⟨rfl, hring ▸ .cons hread hrest, rfl, rfl⟩, ?_⟩
  rw [Pipeline.next, Pipeline.step]
  dsimp only
  rw [hphase]
  dsimp only
  cases v' with
  | mk kernel ring daemon phase =>
    dsimp only at hkernel hdaemon hphase' ⊢
    rw [hkernel, hdaemon, hphase', hphase]

/-- **One step.** What agrees with the state after a step on records is reached by a step on events
from something that agrees with the state before it. -/
theorem next_sees (hwhole : w.Whole) {op : RecordOp} (h : (w.next env fd op).Shows v') :
    ∃ v op', w.Shows v ∧ RecordOp.Sees op op' ∧ v.next env fd op' = v' := by
  cases op with
  | packet p old => exact packet_sees h
  | deliver a behind =>
    rw [next] at h
    split at h
    case h_1 record rest hphase hring =>
      obtain ⟨v, hv, hnext⟩ := deliver_sees hphase hring hwhole h
      exact ⟨v, _, hv, .deliver a behind, hnext⟩
    case h_2 hidle =>
      refine ⟨v', _, h, .deliver a behind, ?_⟩
      rw [Pipeline.next, Pipeline.step]
      split
      case h_1 evt rest hphase hring =>
        obtain ⟨record, records, -, -, hcons⟩ := List.forall₂_cons_right_iff.mp (hring ▸ h.ring)
        exact absurd hcons (hidle record records (h.phase ▸ hphase))
      case h_2 => rfl
  | drained =>
    rw [next] at h
    split at h
    case isTrue hring =>
      obtain ⟨hkernel, hempty, hdaemon, hphase⟩ := h
      have hnil : v'.ring = [] := List.forall₂_nil_left_iff.mp (hring ▸ hempty)
      refine ⟨{ v' with phase := w.phase }, _, ⟨hkernel, hempty, hdaemon, rfl⟩, .drained, ?_⟩
      rw [Pipeline.next, Pipeline.step, if_pos hnil]
      exact congrArg (fun phase => { v' with phase := phase }) hphase.symm
    case isFalse hring =>
      refine ⟨v', _, h, .drained, ?_⟩
      have hne : v'.ring ≠ [] := fun hnil =>
        hring (List.forall₂_nil_right_iff.mp (hnil ▸ h.ring))
      rw [Pipeline.next, Pipeline.step, if_neg hne]
  | age now =>
    rw [next] at h
    split at h
    case isTrue hserving =>
      obtain ⟨hkernel, hring, hdaemon, hphase⟩ := h
      refine ⟨{ v' with daemon := w.daemon }, _, ⟨hkernel, hring, rfl, hphase⟩, .age now, ?_⟩
      rw [Pipeline.next, Pipeline.step, if_pos (hphase.trans hserving)]
      dsimp only at hdaemon ⊢
      rw [← hdaemon]
    case isFalse hdraining =>
      refine ⟨v', _, h, .age now, ?_⟩
      rw [Pipeline.next, Pipeline.step, if_neg (h.phase ▸ hdraining)]
  | loop =>
    obtain ⟨hkernel, hring, hdaemon, hphase⟩ := h
    refine ⟨{ v' with phase := w.phase }, _, ⟨hkernel, hring, hdaemon, rfl⟩, .loop, ?_⟩
    exact congrArg (fun phase => { v' with phase := phase }) hphase.symm

/-! ### Runs -/

theorem Whole.of_ring_eq {w' : RecordPipeline} (h : w.Whole) (heq : w'.ring = w.ring) :
    w'.Whole := by
  rwa [Whole, heq]

theorem whole_handle {r : RingRecord} {a : Answers} {behind : ℕ → UInt8} (h : w.Whole) :
    (w.handle env fd r a behind).Whole := by
  rw [handle]
  split <;> exact h

/-- The kernel program sends no record that is too short. -/
theorem whole_processPkt (h : w.Whole) (p : Pkt) (old : ℕ → UInt8) :
    (w.processPkt p old).Whole := by
  rw [RecordPipeline.processPkt]
  split
  case h_1 => exact h
  case h_2 key ipTot _ =>
    refine List.forall_mem_append.mpr ⟨h, fun r hr => ?_⟩
    rw [Option.mem_toList] at hr
    split at hr
    case h_1 =>
      rw [Pkt.record] at hr
      split at hr
      case isTrue => exact Option.some.inj hr ▸ rfl
      case isFalse => cases hr
    case h_2 => cases hr

theorem whole_next (h : w.Whole) (op : RecordOp) : (w.next env fd op).Whole := by
  cases op with
  | packet p old => exact whole_processPkt h p old
  | deliver a behind =>
    rw [next]
    split
    case h_1 record rest hphase hring =>
      exact whole_handle fun r hr => h r (hring ▸ List.mem_cons_of_mem record hr)
    case h_2 => exact h
  | drained =>
    refine h.of_ring_eq ?_
    rw [next]
    split <;> rfl
  | age now =>
    refine h.of_ring_eq ?_
    rw [next]
    split <;> rfl
  | loop => exact h

/-- Something agrees with every state in which the records are whole. -/
theorem exists_shows (h : w.Whole) : ∃ v, w.Shows v := by
  obtain ⟨events, hevents⟩ : ∃ events, List.Forall₂ RingRecord.Reads w.ring events := by
    obtain ⟨kernel, ring, daemon, phase⟩ := w
    induction ring with
    | nil => exact ⟨[], .nil⟩
    | cons r ring ih =>
      obtain ⟨evt, hread⟩ := RingRecord.exists_reads (h r List.mem_cons_self)
      obtain ⟨events, hrest⟩ := ih fun r' hr' => h r' (List.mem_cons_of_mem r hr')
      exact ⟨evt :: events, .cons hread hrest⟩
  exact ⟨⟨w.kernel, events, w.daemon, w.phase⟩, rfl, hevents, rfl, rfl⟩

/-- **Runs on records.** After every run on records the kernel's maps, the daemon and the main loop
are where a run on events leaves them, with the same packets, calls and sweeps. What the daemon did
is a run of the engine, and its calls are on the events of the packets that were sent, in order and
up to those whose records wait: `ring_buf_cb` drops none of them and misreads none. -/
theorem records_run (env : Env) (fd : ℤ) (iface : Bytes) (ml dump : Bool) (ops : List RecordOp) :
    let w := run (next env fd) (start iface ml dump) ops
    ∃ ops' eops, List.Forall₂ RecordOp.Sees ops ops' ∧
      w.Shows (run (Pipeline.next env fd) (Pipeline.start iface ml dump) ops') ∧
      w.daemon = run (EngineRun.step env) (EngineRun.start iface ml dump) eops ∧
      ((runOut (Pipeline.step env fd) (Pipeline.start iface ml dump) ops').2.reduceOption.filterMap
        fun o => o.path.event) = eops.filterMap EngineOp.event ++
          (run (Pipeline.next env fd) (Pipeline.start iface ml dump) ops').ring := by
  intro w
  have hstart : (start iface ml dump).Whole := fun _ h => absurd h List.not_mem_nil
  have hkeeps : ∀ w op, w.Whole → (next env fd w op).Whole := fun _ op hw => whole_next hw op
  obtain ⟨v', hv'⟩ := exists_shows (run_induction hstart hkeeps ops)
  have hback : ∀ w op v', w.Whole → (next env fd w op).Shows v' →
      ∃ v op', w.Shows v ∧ RecordOp.Sees op op' ∧ v.next env fd op' = v' :=
    fun _ _ _ hw h => next_sees hw h
  obtain ⟨v, ops', hv, hsees, hrun⟩ := exists_run_of_backward hkeeps hback hstart hv'
  obtain rfl : v = Pipeline.start iface ml dump := by
    obtain ⟨kernel, ring, daemon, phase⟩ := v
    obtain ⟨hkernel, hring, hdaemon, hphase⟩ := hv
    rw [Pipeline.start, Pipeline.mk.injEq]
    exact ⟨hkernel, List.forall₂_nil_left_iff.mp hring, hdaemon, hphase⟩
  refine ⟨ops', _, hsees, hrun ▸ hv', ?_, Pipeline.submitted_run env fd ops' _ rfl⟩
  rw [← hv'.daemon, ← hrun]
  exact Pipeline.daemon_run env fd (Pipeline.start iface ml dump) ops'

end RecordPipeline

end NdpiObserve
