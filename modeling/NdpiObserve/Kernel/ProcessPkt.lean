import NdpiObserve.Capture
import NdpiObserve.Library.BoundedMap
import NdpiObserve.Library.Machine

/-!
# The kernel program

The maps of `bpf/ndpi_observe.bpf.c` and `process_pkt`, run on one packet after the other. The
surroundings of the program are part of its input: the CPU it runs on, the clock, whether the ring
buffer has room, and what the reserved record held. The daemon writes to the verdict map between
packets.

## Main definitions

* `Kernel`: the flow map, the verdict map and the counters of the applications on each CPU.
* `processPkt`: one packet, with its path: a copy to the ring buffer or a count in the kernel.
* `Kernel.step`: a packet or a write of the daemon to the verdict map.
* `FlowStep`: what a packet does to the entry of its own flow.

## Main results

* `processFlow_flowStep`: a packet refines `FlowStep` for its flow.
* `processFlow_lookup_of_ne`, `processFlow_verdictMap`: everything else is unchanged.
-/

namespace NdpiObserve

/-! ### Maps -/

/-- `struct ndpi_obs_flow_state`. -/
structure ObsFlowState where
  state : FlowState
  pktCount : UInt8
  appId : UInt16
  bytes : UInt64
  packets : UInt64
  lastSeenNs : UInt64
deriving DecidableEq

/-- `struct ndpi_obs_app_cnt`. -/
structure ObsAppCnt where
  bytes : UInt64 := 0
  packets : UInt64 := 0
  flows : UInt64 := 0

/-- `max_entries` of `flow_map` and of `verdict_map`. -/
def mapEntries : ℕ := 65536

/-- `max_entries` of `app_counters`. -/
abbrev appCounterEntries : ℕ := 512

/-- The maps of the program; `appCounters` has one array for each CPU. -/
structure Kernel where
  flowMap : BoundedMap FlowKey ObsFlowState mapEntries := .empty
  verdictMap : BoundedMap FlowKey UInt16 mapEntries := .empty
  appCounters : ℕ → Fin appCounterEntries → ObsAppCnt := fun _ _ => {}

/-- A packet, and what the program finds around it. -/
structure Pkt where
  skb : Skb
  cpu : ℕ := 0
  /-- `bpf_ktime_get_ns`. -/
  ts : UInt64 := 0
  /-- `bpf_ringbuf_reserve` succeeds. -/
  reserve : Bool := true
  /-- What the reserved record held. -/
  stale : ℕ → UInt8 := fun _ => 0

/-- `pkt_bytes`. -/
def Pkt.bytes (p : Pkt) : UInt64 := UInt64.ofNat p.skb.len

/-! ### One packet -/

/-- Where `process_pkt` sends a packet: to the ring buffer, with the event when there is room, or
to the counters of an application. -/
inductive PktPath where
  | ring (evt : Option FlowEvent)
  | counted (app : UInt16)

/-- The event that is submitted to the ring buffer. -/
def PktPath.event : PktPath → Option FlowEvent
  | .ring evt => evt
  | .counted _ => none

/-- The application that the packet is counted under. -/
def PktPath.app : PktPath → Option UInt16
  | .ring _ => none
  | .counted app => some app

/-- What is seen of one packet of a flow. -/
structure PktOut where
  key : FlowKey
  cpu : ℕ
  bytes : UInt64
  path : PktPath

def updateAppCounter (cpu : ℕ) (appId : UInt32) (bytes : UInt64) (isNewFlow : Bool) (s : Kernel) :
    Kernel :=
  if h : appId.toNat < appCounterEntries then
    let i : Fin appCounterEntries := ⟨appId.toNat, h⟩
    let cnt := s.appCounters cpu i
    let cnt : ObsAppCnt :=
      { bytes := cnt.bytes + bytes
        packets := cnt.packets + 1
        flows := if isNewFlow then cnt.flows + 1 else cnt.flows }
    { s with
      appCounters := Function.update s.appCounters cpu
        (Function.update (s.appCounters cpu) i cnt) }
  else s

/-- The event of a packet, when the ring buffer has room for it. -/
def Pkt.event (p : Pkt) (key : FlowKey) (ipTot : UInt16) : Option FlowEvent :=
  if p.reserve then some (sendToRingbuf p.skb key ethHlen ipTot p.ts p.stale) else none

/-- The entry of a flow's first packet. -/
def Pkt.newFs (p : Pkt) : ObsFlowState where
  state := .classifying
  pktCount := 1
  appId := 0
  bytes := p.bytes
  packets := 1
  lastSeenNs := p.ts

/-- The entry after the packet is added to its traffic. -/
def ObsFlowState.touch (fs : ObsFlowState) (p : Pkt) : ObsFlowState :=
  { fs with bytes := fs.bytes + p.bytes, packets := fs.packets + 1, lastSeenNs := p.ts }

/-- The second half of `process_pkt`, for a packet of the flow `key`. An entry that the program
changes through its pointer is stored at the end. -/
def processFlow (s : Kernel) (p : Pkt) (key : FlowKey) (evt : Option FlowEvent) :
    Kernel × PktPath :=
  match s.flowMap.lookup key with
  | none =>
    ({ s with flowMap := (s.flowMap.insertNew key p.newFs).getD s.flowMap }, .ring evt)
  | some fs =>
    let fs := fs.touch p
    if fs.state = .classified ∨ fs.state = .gaveUp then
      (updateAppCounter p.cpu fs.appId.toUInt32 p.bytes false
        { s with flowMap := s.flowMap.set key fs }, .counted fs.appId)
    else
      match s.verdictMap.lookup key with
      | some verdict =>
        let fs := { fs with appId := verdict, state := .classified }
        (updateAppCounter p.cpu fs.appId.toUInt32 p.bytes true
          { s with flowMap := s.flowMap.set key fs }, .counted fs.appId)
      | none =>
        let fs := { fs with pktCount := fs.pktCount + 1 }
        if fs.pktCount ≥ flowMaxClassifyPkts then
          let fs := { fs with state := .gaveUp, appId := 0 }
          (updateAppCounter p.cpu 0 p.bytes true
            { s with flowMap := s.flowMap.set key fs }, .counted 0)
        else ({ s with flowMap := s.flowMap.set key fs }, .ring evt)

/-- `process_pkt`. -/
def processPkt (s : Kernel) (p : Pkt) : Kernel × Option PktOut :=
  match parsePkt p.skb with
  | none => (s, none)
  | some (key, ipTot) =>
    let r := processFlow s p key (p.event key ipTot)
    (r.1, some { key := key, cpu := p.cpu, bytes := p.bytes, path := r.2 })

/-- `bpf_map_update_elem(verdict_map_fd, &k, &app, BPF_ANY)`. -/
def Kernel.writeVerdict (s : Kernel) (k : FlowKey) (app : UInt16) : Kernel :=
  { s with verdictMap := (s.verdictMap.update k app).getD s.verdictMap }

/-- What happens to the maps: a packet is processed, or the daemon writes a verdict. -/
inductive KernelOp where
  | packet (p : Pkt)
  | verdict (k : FlowKey) (app : UInt16)

def Kernel.step (s : Kernel) : KernelOp → Kernel × Option PktOut
  | .packet p => processPkt s p
  | .verdict k app => (s.writeVerdict k app, none)

/-! ### The machine of one flow -/

/-- What a packet does to the entry of its flow, given whether the flow map is full and the
verdict that the verdict map holds for the flow. -/
inductive FlowStep (p : Pkt) (evt : Option FlowEvent) (full : Prop) (verdict : Option UInt16) :
    Option ObsFlowState → PktPath → Option ObsFlowState → Prop
  | first (h : ¬full) : FlowStep p evt full verdict none (.ring evt) (some p.newFs)
  | unstored (h : full) : FlowStep p evt full verdict none (.ring evt) none
  | decided (fs : ObsFlowState) (h : fs.state.isTerminal = true) :
    FlowStep p evt full verdict (some fs) (.counted fs.appId) (some (fs.touch p))
  | learned (fs : ObsFlowState) (v : UInt16) (h : fs.state.isTerminal = false)
      (hv : verdict = some v) :
    FlowStep p evt full verdict (some fs) (.counted v)
      (some { fs.touch p with appId := v, state := .classified })
  | gaveUp (fs : ObsFlowState) (h : fs.state.isTerminal = false) (hv : verdict = none)
      (hlast : flowMaxClassifyPkts ≤ fs.pktCount + 1) :
    FlowStep p evt full verdict (some fs) (.counted 0)
      (some { fs.touch p with pktCount := fs.pktCount + 1, state := .gaveUp, appId := 0 })
  | pending (fs : ObsFlowState) (h : fs.state.isTerminal = false)
      (hv : verdict = none) (hmore : fs.pktCount + 1 < flowMaxClassifyPkts) :
    FlowStep p evt full verdict (some fs) (.ring evt)
      (some { fs.touch p with pktCount := fs.pktCount + 1 })

/-! ### What a packet changes -/

@[simp] theorem updateAppCounter_flowMap (cpu : ℕ) (appId : UInt32) (bytes : UInt64)
    (isNewFlow : Bool) (s : Kernel) :
    (updateAppCounter cpu appId bytes isNewFlow s).flowMap = s.flowMap := by
  rw [updateAppCounter]
  split <;> rfl

@[simp] theorem updateAppCounter_verdictMap (cpu : ℕ) (appId : UInt32) (bytes : UInt64)
    (isNewFlow : Bool) (s : Kernel) :
    (updateAppCounter cpu appId bytes isNewFlow s).verdictMap = s.verdictMap := by
  rw [updateAppCounter]
  split <;> rfl

theorem Pkt.key_event {p : Pkt} {k : FlowKey} {tot : UInt16} {evt : FlowEvent}
    (h : p.event k tot = some evt) : evt.key = k := by
  rw [event] at h
  split at h
  · rw [← Option.some.inj h, sendToRingbuf]
    split <;> rfl
  · cases h

variable {s : Kernel} {p : Pkt} {k : FlowKey} {tot : UInt16}

theorem processPkt_of_none (h : parsePkt p.skb = none) : processPkt s p = (s, none) := by
  rw [processPkt, h]

theorem processPkt_of_some (h : parsePkt p.skb = some (k, tot)) :
    processPkt s p = ((processFlow s p k (p.event k tot)).1,
      some { key := k, cpu := p.cpu, bytes := p.bytes,
             path := (processFlow s p k (p.event k tot)).2 }) := by
  rw [processPkt, h]

/-- **Refinement of one flow.** A packet does to the entry of its flow what `FlowStep` says. -/
theorem processFlow_flowStep (s : Kernel) (p : Pkt) (k : FlowKey) (evt : Option FlowEvent) :
    FlowStep p evt s.flowMap.IsFull (s.verdictMap.lookup k) (s.flowMap.lookup k)
      (processFlow s p k evt).2 ((processFlow s p k evt).1.flowMap.lookup k) := by
  rw [processFlow]
  cases hfs : s.flowMap.lookup k with
  | none =>
    dsimp only
    cases hnew : s.flowMap.insertNew k p.newFs with
    | none =>
      have hfull := BoundedMap.insertNew_eq_none_iff.mp hnew
      simp only [hfs, ne_eq, not_true, false_or] at hfull
      rw [Option.getD_none, hfs]
      exact .unstored hfull
    | some m =>
      rw [Option.getD_some, BoundedMap.lookup_insertNew hnew, if_pos rfl]
      refine .first fun hfull => ?_
      rw [BoundedMap.insertNew_eq_none_iff.mpr (.inr hfull)] at hnew
      cases hnew
  | some fs =>
    have hset (fs' : ObsFlowState) : (s.flowMap.set k fs').lookup k = some fs' := by
      rw [BoundedMap.lookup_set, if_pos rfl, hfs]
      rfl
    dsimp only
    split
    case isTrue hterm =>
      rw [updateAppCounter_flowMap, hset]
      exact .decided fs (by simpa [FlowState.isTerminal, ObsFlowState.touch] using hterm)
    case isFalse hterm =>
      have hopen : fs.state.isTerminal = false := by
        simpa [FlowState.isTerminal, ObsFlowState.touch] using hterm
      cases hv : s.verdictMap.lookup k with
      | some v =>
        dsimp only
        rw [updateAppCounter_flowMap, hset]
        exact .learned fs v hopen rfl
      | none =>
        dsimp only
        split
        case isTrue hlast =>
          rw [updateAppCounter_flowMap, hset]
          exact .gaveUp fs hopen rfl hlast
        case isFalse hlast =>
          rw [hset]
          exact .pending fs hopen rfl (UInt8.not_le.mp hlast)

theorem processFlow_verdictMap (s : Kernel) (p : Pkt) (k : FlowKey) (evt : Option FlowEvent) :
    (processFlow s p k evt).1.verdictMap = s.verdictMap := by
  rw [processFlow]
  split
  · rfl
  · dsimp only
    split
    · rw [updateAppCounter_verdictMap]
    · split
      · rw [updateAppCounter_verdictMap]
      · split
        · rw [updateAppCounter_verdictMap]
        · rfl

/-- A packet leaves the entries of the other flows alone. -/
theorem processFlow_lookup_of_ne {k' : FlowKey} (hne : k' ≠ k) (evt : Option FlowEvent) :
    (processFlow s p k evt).1.flowMap.lookup k' = s.flowMap.lookup k' := by
  have hset (fs : ObsFlowState) : (s.flowMap.set k fs).lookup k' = s.flowMap.lookup k' := by
    rw [BoundedMap.lookup_set, if_neg hne]
  rw [processFlow]
  split
  · cases hnew : s.flowMap.insertNew k p.newFs with
    | none => rfl
    | some m =>
      dsimp only [Option.getD_some]
      rw [BoundedMap.lookup_insertNew hnew, if_neg hne]
  · dsimp only
    split
    · rw [updateAppCounter_flowMap, hset]
    · split
      · rw [updateAppCounter_flowMap, hset]
      · split
        · rw [updateAppCounter_flowMap, hset]
        · exact hset _

/-! ### A sample packet -/

/-- A UDP packet from 10.0.0.1:40000 to 10.0.0.2:443 with 32 bytes of payload, in its frame. -/
def udpPkt : Pkt where
  skb :=
    { bytes := List.replicate 12 0 ++ [0x08, 0x00] ++
        [0x45, 0, 0, 60, 0, 0, 0, 0, 64, 17, 0, 0, 10, 0, 0, 1, 10, 0, 0, 2] ++
        [0x9C, 0x40, 0x01, 0xBB, 0, 40, 0, 0] ++ List.replicate 32 0
      headLen := 74
      headLen_le := by decide }

/-- The flow of `udpPkt`. -/
def udpKey : FlowKey where
  srcIp := 0x0100000A
  dstIp := 0x0200000A
  srcPort := 0x409C
  dstPort := 0xBB01
  proto := ipprotoUdp

theorem parsePkt_udpPkt : parsePkt udpPkt.skb = some (udpKey, 60) := by decide +kernel

end NdpiObserve
