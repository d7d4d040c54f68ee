import NdpiObserve.Kernel.ProcessPkt

/-!
# The two capture front-ends

A frame reaches the engine through `process_pkt` or through the receive loop of `ndpid-simple`,
which builds its events to be those of the ring buffer. The two parsers differ in what they ask of
the transport header: the kernel program wants a whole TCP or UDP header, the receive loop only
the four bytes of the ports.

## Main definitions

* `simpleReceive`: the event of a received frame.
* `FlowEvent.captured`: the bytes of the packet in an event.
* `FrontEndsAgree`: both ignore the frame, or their events agree.
* `HasPorts`, `l4HeaderLen`: a frame with the ports of a TCP or UDP packet, and the length of the
  transport header it announces.

## Main results

* `hasPorts_of_parsePkt`, `parsePkt_of_hasPorts`: the frames that the kernel program parses.
* `simpleReceive_eq_none`, `exists_simpleReceive`: the frames that the receive loop accepts.
* `processPkt_agrees_simple_iff`: the front-ends agree on a frame if and only if a frame with ports
  has its whole transport header and the ring buffer has room for it.
-/

namespace NdpiObserve

/-! ### What a front-end delivers -/

/-- `PKT_BUF_SIZE` -/
def pktBufSize : ℕ := 65536

/-- The receive loop on one frame, of which `recv` keeps what fits the packet buffer. -/
def simpleReceive (frame : Bytes) (behind : ℕ → UInt8) : Option FlowEvent :=
  (simpleEvent (frame.take pktBufSize) behind).map Prod.fst

/-- The bytes of the packet that an event holds. -/
def FlowEvent.captured (evt : FlowEvent) : Bytes :=
  (List.range evt.actualDataLen.toNat).map evt.pktData

/-- What `process_pkt` and the receive loop make of a frame: nothing, or events of one flow with
one packet length, where the kernel captured no more than the receive loop. -/
inductive FrontEndsAgree : Option PktOut → Option FlowEvent → Prop
  | ignored : FrontEndsAgree none none
  | events (out : PktOut) (evt evt' : FlowEvent) (hring : out.path.event = some evt)
      (hkey : evt.key = evt'.key) (hlen : evt.pktLen = evt'.pktLen)
      (hcaptured : evt.captured <+: evt'.captured) : FrontEndsAgree (some out) (some evt')

/-! ### Frames -/

/-- The length of the IP header that a frame announces. -/
def ipHeaderLen (frame : Bytes) : ℕ := (frame.getD 14 0 &&& 0x0f).toNat * 4

/-- A frame with an IPv4 header of TCP or UDP and the four bytes of the ports behind it. -/
def HasPorts (frame : Bytes) : Prop :=
  ethHlen + 20 ≤ frame.length ∧ be16 (frame.getD 12 0) (frame.getD 13 0) = ethPIp ∧
    frame.getD 14 0 >>> 4 = 4 ∧ 20 ≤ ipHeaderLen frame ∧
    (frame.getD 23 0 = ipprotoTcp ∨ frame.getD 23 0 = ipprotoUdp) ∧
    ethHlen + ipHeaderLen frame + 4 ≤ frame.length

instance (frame : Bytes) : Decidable (HasPorts frame) :=
  inferInstanceAs (Decidable (_ ∧ _))

/-- `sizeof(struct tcphdr)` or `sizeof(struct udphdr)`, by the protocol of a frame. -/
def l4HeaderLen (frame : Bytes) : ℕ := if frame.getD 23 0 = ipprotoTcp then 20 else 8

theorem ntohs_load16 (a b : UInt8) : ntohs (load16 a b) = be16 a b := by
  apply UInt16.eq_of_toBitVec_eq
  ext i hi
  simp only [ntohs, load16, be16, UInt16.toBitVec_or, UInt16.toBitVec_shiftLeft,
    UInt16.toBitVec_shiftRight, UInt8.toBitVec_toUInt16]
  simp
  grind

theorem ipHeaderLen_le (frame : Bytes) : ipHeaderLen frame ≤ 60 := by
  have h : (frame.getD 14 0 &&& 0x0f).toNat ≤ 15 := by
    rw [UInt8.toNat_and]
    exact Nat.and_le_right
  rw [ipHeaderLen]
  omega

/-- The flow key in a frame with ports. -/
def frameKey (frame : Bytes) : FlowKey where
  srcIp := load32 (frame.getD 26 0) (frame.getD 27 0) (frame.getD 28 0) (frame.getD 29 0)
  dstIp := load32 (frame.getD 30 0) (frame.getD 31 0) (frame.getD 32 0) (frame.getD 33 0)
  srcPort := load16 (frame.getD (ethHlen + ipHeaderLen frame) 0)
    (frame.getD (ethHlen + ipHeaderLen frame + 1) 0)
  dstPort := load16 (frame.getD (ethHlen + ipHeaderLen frame + 2) 0)
    (frame.getD (ethHlen + ipHeaderLen frame + 3) 0)
  proto := frame.getD 23 0

/-- The total length in the IP header of a frame. -/
def frameTotLen (frame : Bytes) : UInt16 := be16 (frame.getD 16 0) (frame.getD 17 0)

/-! ### What each front-end accepts -/

theorem hasPorts_of_parsePkt {s : Skb} {r : FlowKey × UInt16} (h : parsePkt s = some r) :
    HasPorts s.bytes ∧ ethHlen + ipHeaderLen s.bytes + l4HeaderLen s.bytes ≤ s.headLen := by
  have hle := s.headLen_le
  simp only [parsePkt, Skb.half, Skb.byte, ntohs_load16, Option.ite_none_left_eq_some] at h
  obtain ⟨-, heth, hip, hver, hihl, -, h⟩ := h
  simp only [HasPorts, ipHeaderLen]
  by_cases htcp : s.bytes.getD 23 0 = ipprotoTcp
  · rw [if_pos htcp, Option.ite_none_left_eq_some] at h
    rw [l4HeaderLen, if_pos htcp]
    exact ⟨⟨by omega, not_not.mp heth, not_not.mp hver, by omega, .inl htcp, by omega⟩, by omega⟩
  · rw [if_neg htcp, Option.ite_none_right_eq_some, Option.ite_none_left_eq_some] at h
    rw [l4HeaderLen, if_neg htcp]
    exact ⟨⟨by omega, not_not.mp heth, not_not.mp hver, by omega, .inr h.1, by omega⟩, by omega⟩

/-- The kernel program reads the flow of a frame with ports whose transport header it can see. -/
theorem parsePkt_of_hasPorts {s : Skb} (hports : HasPorts s.bytes)
    (hl4 : ethHlen + ipHeaderLen s.bytes + l4HeaderLen s.bytes ≤ s.headLen) :
    parsePkt s = some (frameKey s.bytes, frameTotLen s.bytes) := by
  obtain ⟨-, heth, hver, hihl, hproto, -⟩ := hports
  have hmin : 8 ≤ l4HeaderLen s.bytes := by
    rw [l4HeaderLen]
    split_ifs <;> decide
  rw [ipHeaderLen] at hihl hl4
  have heth_len : ¬s.headLen < ethHlen := by omega
  have hip : ¬s.headLen < ethHlen + 20 := by omega
  have hihl' : ¬(s.bytes.getD 14 0 &&& 0x0f).toNat * 4 < 20 := by omega
  have hip' : ¬s.headLen < ethHlen + (s.bytes.getD 14 0 &&& 0x0f).toNat * 4 := by omega
  dsimp only [parsePkt]
  simp only [Skb.half, Skb.byte, Skb.word, ntohs_load16, ne_eq, heth, hver, heth_len, hip, hihl',
    hip', not_true, if_false]
  rcases hproto with htcp | hudp
  · rw [l4HeaderLen, if_pos htcp] at hl4
    rw [if_pos htcp, if_neg (Nat.not_lt.mpr hl4)]
    rfl
  · have htcp : s.bytes.getD 23 0 ≠ ipprotoTcp := hudp ▸ by decide
    rw [l4HeaderLen, if_neg htcp] at hl4
    rw [if_neg htcp, if_pos hudp, if_neg (Nat.not_lt.mpr hl4)]
    rfl

theorem hasPorts_of_simpleEvent {frame : Bytes} {behind : ℕ → UInt8} {r : FlowEvent × ℕ}
    (h : simpleEvent frame behind = some r) : HasPorts frame := by
  simp only [simpleEvent, Option.ite_none_left_eq_some] at h
  obtain ⟨hip, heth, hver, hihl, hproto, hports, -⟩ := h
  simp only [ethHlen, Nat.reduceAdd] at hip hver hihl hproto hports
  simp only [HasPorts, ipHeaderLen, ethHlen]
  exact ⟨by omega, not_not.mp heth, not_not.mp hver, by omega, by tauto, by omega⟩

/-! ### The packet buffer -/

section PacketBuffer

variable (frame : Bytes)

theorem getD_take_pktBufSize {i : ℕ} (hi : i < pktBufSize) :
    (frame.take pktBufSize).getD i 0 = frame.getD i 0 := by
  simp only [List.getD_eq_getElem?_getD, List.getElem?_take, if_pos hi]

theorem ipHeaderLen_take : ipHeaderLen (frame.take pktBufSize) = ipHeaderLen frame := by
  rw [ipHeaderLen, getD_take_pktBufSize frame (by decide), ipHeaderLen]

/-- No header reaches the end of the packet buffer. -/
theorem hasPorts_take : HasPorts (frame.take pktBufSize) ↔ HasPorts frame := by
  have hle := ipHeaderLen_le frame
  have hlen (n : ℕ) (hn : n ≤ pktBufSize) :
      n ≤ (frame.take pktBufSize).length ↔ n ≤ frame.length := by
    rw [List.length_take]
    omega
  rw [HasPorts, HasPorts, ipHeaderLen_take, hlen _ (by decide),
    hlen (ethHlen + ipHeaderLen frame + 4) (by simp only [ethHlen, pktBufSize]; omega),
    getD_take_pktBufSize frame (by decide), getD_take_pktBufSize frame (by decide),
    getD_take_pktBufSize frame (by decide), getD_take_pktBufSize frame (by decide)]

theorem frameKey_take : frameKey (frame.take pktBufSize) = frameKey frame := by
  have hle := ipHeaderLen_le frame
  have hport (i : ℕ) (hi : i ≤ 3) : ethHlen + ipHeaderLen frame + i < pktBufSize := by
    simp only [ethHlen, pktBufSize]
    omega
  have hsrc : ethHlen + ipHeaderLen frame < pktBufSize := hport 0 (by decide)
  rw [frameKey, ipHeaderLen_take, getD_take_pktBufSize frame hsrc,
    getD_take_pktBufSize frame (hport 1 (by decide)),
    getD_take_pktBufSize frame (hport 2 (by decide)),
    getD_take_pktBufSize frame (hport 3 (by decide))]
  simp (disch := decide) only [getD_take_pktBufSize]
  rfl

theorem frameTotLen_take : frameTotLen (frame.take pktBufSize) = frameTotLen frame := by
  rw [frameTotLen, getD_take_pktBufSize frame (by decide),
    getD_take_pktBufSize frame (by decide), frameTotLen]

end PacketBuffer

/-! ### Captured bytes -/

/-- An event whose buffer starts with the bytes from the IP header on has captured a part of the
frame. -/
theorem FlowEvent.captured_eq {evt : FlowEvent} {frame : Bytes} {n : ℕ}
    (hlen : evt.actualDataLen.toNat = n) (hn : ethHlen + n ≤ frame.length)
    (hdata : ∀ i < n, evt.pktData i = frame.getD (ethHlen + i) 0) :
    evt.captured = (frame.drop ethHlen).take n := by
  rw [captured, hlen]
  refine List.ext_getElem ?_ fun i hi hi' => ?_
  · rw [List.length_map, List.length_range, List.length_take, List.length_drop]
    omega
  · have hin : i < n := by simpa using hi
    have hframe : ethHlen + i < frame.length := by omega
    rw [List.getElem_map, List.getElem_range, hdata i hin, List.getElem_take, List.getElem_drop,
      List.getD_eq_getElem _ _ hframe]

theorem actualDataLen_of_captured {evt : FlowEvent} {n : ℕ} (hlen : evt.dataLen = UInt32.ofNat n)
    (hn : n ≤ flowEventDataLen) : evt.actualDataLen.toNat = n := by
  rw [flowEventDataLen] at hn
  have hmod : (UInt32.ofNat n).toNat = n := by
    rw [UInt32.toNat_ofNat']
    omega
  have hplain : UInt32.ofNat n &&& 0xFFFF0000 ≠ noData := by
    intro h
    have hle : noData.toNat ≤ n := by
      rw [← h, UInt32.toNat_and, hmod]
      exact Nat.and_le_left
    have hmin : 512 < noData.toNat := by decide
    omega
  rw [FlowEvent.actualDataLen, hlen, if_neg hplain, UInt32.toNat_toUInt16, hmod]
  omega

/-- The mark for missing data is read back, whatever the length beside it. -/
theorem noData_or_and (len : UInt32) : (noData ||| (len &&& 0xFFFF)) &&& 0xFFFF0000 = noData := by
  apply UInt32.eq_of_toBitVec_eq
  rw [UInt32.toBitVec_and, UInt32.toBitVec_or, UInt32.toBitVec_and, BitVec.and_or_distrib_right,
    BitVec.and_assoc]
  simp [noData]

theorem captureTier_le {s : Skb} {off n : ℕ} (h : captureTier s off = some n) :
    off + n ≤ s.len ∧ n ≤ flowEventDataLen := by
  rw [captureTier] at h
  split_ifs at h with h512 h256 h128 h60 <;> cases h
  · exact ⟨h512, le_rfl⟩
  · exact ⟨h256, by decide⟩
  · exact ⟨h128, by decide⟩
  · exact ⟨h60, by decide⟩

/-- The kernel program captures the first bytes of the packet, up to the tier that fits. -/
theorem captured_sendToRingbuf (s : Skb) (key : FlowKey) (tot : UInt16) (ts : UInt64)
    (stale : ℕ → UInt8) :
    (sendToRingbuf s key ethHlen tot ts stale).captured =
      (s.bytes.drop ethHlen).take ((captureTier s ethHlen).getD 0) := by
  rw [sendToRingbuf]
  cases htier : captureTier s ethHlen with
  | none =>
    rw [FlowEvent.captured, FlowEvent.actualDataLen, if_pos (noData_or_and _)]
    rfl
  | some n =>
    obtain ⟨hn, hmax⟩ := captureTier_le htier
    exact FlowEvent.captured_eq (actualDataLen_of_captured rfl hmax) hn fun i hi => if_pos hi

/-- The receive loop makes an event of every frame with ports. -/
theorem exists_simpleEvent {frame : Bytes} (behind : ℕ → UInt8) (h : HasPorts frame) :
    ∃ evt n, simpleEvent frame behind = some (evt, n) ∧ evt.key = frameKey frame ∧
      evt.pktLen = (frameTotLen frame).toUInt32 ∧
      evt.captured = (frame.drop ethHlen).take flowEventDataLen := by
  obtain ⟨hip, heth, hver, hihl, hproto, hports⟩ := h
  rw [ipHeaderLen] at hihl hports
  have hip' : ¬frame.length < ethHlen + 20 := by omega
  have hihl' : ¬((frame.getD 14 0 &&& 0x0f).toNat * 4 < 20 ∨
      frame.length - ethHlen < (frame.getD 14 0 &&& 0x0f).toNat * 4) := by omega
  have hproto' : ¬(frame.getD 23 0 ≠ ipprotoTcp ∧ frame.getD 23 0 ≠ ipprotoUdp) := by tauto
  have hports' : ¬frame.length - ethHlen < (frame.getD 14 0 &&& 0x0f).toNat * 4 + 4 := by omega
  refine ⟨_, _, (if_neg hip').trans <| (if_neg (not_not.mpr heth)).trans <|
    (if_neg (not_not.mpr hver)).trans <| (if_neg hihl').trans <|
      (if_neg hproto').trans (if_neg hports'), rfl, rfl, ?_⟩
  have hcopy : ethHlen + min (frame.length - ethHlen) flowEventDataLen ≤ frame.length := by omega
  refine (FlowEvent.captured_eq (actualDataLen_of_captured rfl (min_le_right _ _)) hcopy
    fun i hi => if_pos hi).trans ?_
  rw [← List.length_drop, min_comm, ← List.take_take, List.take_length]

theorem simpleReceive_eq_none {frame : Bytes} (behind : ℕ → UInt8) (h : ¬HasPorts frame) :
    simpleReceive frame behind = none := by
  cases hevt : simpleEvent (frame.take pktBufSize) behind with
  | none => rw [simpleReceive, hevt, Option.map_none]
  | some r => exact absurd ((hasPorts_take frame).mp (hasPorts_of_simpleEvent hevt)) h

/-- The event of a received frame with ports. -/
theorem exists_simpleReceive {frame : Bytes} (behind : ℕ → UInt8) (h : HasPorts frame) :
    ∃ evt, simpleReceive frame behind = some evt ∧ evt.key = frameKey frame ∧
      evt.pktLen = (frameTotLen frame).toUInt32 ∧
      evt.captured = (frame.drop ethHlen).take flowEventDataLen := by
  obtain ⟨evt, n, hevt, hkey, hlen, hcaptured⟩ :=
    exists_simpleEvent behind ((hasPorts_take frame).mpr h)
  refine ⟨evt, by rw [simpleReceive, hevt, Option.map_some], ?_, ?_, ?_⟩
  · rw [hkey, frameKey_take]
  · rw [hlen, frameTotLen_take]
  · have hmax : flowEventDataLen ≤ pktBufSize - ethHlen := by decide
    rw [hcaptured, List.drop_take, List.take_take, min_eq_left hmax]

/-! ### Agreement -/

/-- **Agreement of the front-ends.** On a linear frame of a flow that is not in the flow map, both
front-ends ignore the frame or their events agree, if and only if a frame with ports has its whole
transport header and the ring buffer has room for it. -/
theorem processPkt_agrees_simple_iff (s : Kernel) (p : Pkt) (behind : ℕ → UInt8)
    (hlin : p.skb.headLen = p.skb.len)
    (hnew : ∀ k tot, parsePkt p.skb = some (k, tot) → s.flowMap.lookup k = none) :
    FrontEndsAgree (processPkt s p).2 (simpleReceive p.skb.bytes behind) ↔
      (HasPorts p.skb.bytes →
        ethHlen + ipHeaderLen p.skb.bytes + l4HeaderLen p.skb.bytes ≤ p.skb.len ∧
          p.reserve = true) := by
  by_cases hports : HasPorts p.skb.bytes
  case neg =>
    have hparse : parsePkt p.skb = none := by
      rw [Option.eq_none_iff_forall_ne_some]
      exact fun r hr => hports (hasPorts_of_parsePkt hr).1
    rw [processPkt_of_none hparse, simpleReceive_eq_none behind hports]
    exact iff_of_true .ignored fun h => absurd h hports
  case pos =>
    obtain ⟨evt', hevt', hkey, hlen, hcaptured⟩ := exists_simpleReceive behind hports
    rw [hevt', ← hlin]
    by_cases hl4 : ethHlen + ipHeaderLen p.skb.bytes + l4HeaderLen p.skb.bytes ≤ p.skb.headLen
    case neg =>
      have hparse : parsePkt p.skb = none := by
        rw [Option.eq_none_iff_forall_ne_some]
        exact fun r hr => hl4 (hasPorts_of_parsePkt hr).2
      rw [processPkt_of_none hparse]
      refine iff_of_false (fun h => ?_) fun h => hl4 (h hports).1
      cases h
    case pos =>
      have hparse := parsePkt_of_hasPorts hports hl4
      rw [processPkt_of_some hparse, processFlow, hnew _ _ hparse]
      cases hroom : p.reserve with
      | false =>
        refine iff_of_false (fun h => ?_) fun h => absurd (h hports).2 (by decide)
        cases h with
        | events _ evt _ hring => simp [PktPath.event, Pkt.event, hroom] at hring
      | true =>
        refine iff_of_true ?_ fun _ => ⟨hl4, rfl⟩
        refine .events _ (sendToRingbuf p.skb (frameKey p.skb.bytes) ethHlen
          (frameTotLen p.skb.bytes) p.ts p.stale) evt' ?_ ?_ ?_ ?_
        · rw [PktPath.event, Pkt.event, if_pos hroom]
        · rw [hkey, sendToRingbuf]
          split <;> rfl
        · rw [hlen, sendToRingbuf]
          split <;> rfl
        · rw [captured_sendToRingbuf, hcaptured]
          refine List.take_prefix_take_left ?_
          cases htier : captureTier p.skb ethHlen with
          | none => exact Nat.zero_le _
          | some n => exact (captureTier_le htier).2

/-- A UDP frame that ends behind its ports. -/
def portsOnlyPkt : Pkt where
  skb :=
    { bytes := udpPkt.skb.bytes.take 38
      headLen := 38
      headLen_le := by decide }

/-- Both front-ends see the sample packet. -/
theorem processPkt_agrees_simple_udpPkt :
    FrontEndsAgree (processPkt {} udpPkt).2 (simpleReceive udpPkt.skb.bytes fun _ => 0) :=
  (processPkt_agrees_simple_iff {} udpPkt (fun _ => 0) rfl fun _ _ _ => rfl).mpr
    fun _ => ⟨by decide +kernel, rfl⟩

/-- The frame that ends behind its ports is an event of the receive loop only. -/
theorem simple_accepts_portsOnly :
    ¬∀ (s : Kernel) (p : Pkt) (behind : ℕ → UInt8), p.skb.headLen = p.skb.len →
      (∀ k tot, parsePkt p.skb = some (k, tot) → s.flowMap.lookup k = none) →
      FrontEndsAgree (processPkt s p).2 (simpleReceive p.skb.bytes behind) := by
  intro h
  have hagree := h {} portsOnlyPkt (fun _ => 0) rfl fun _ _ _ => rfl
  have hparse : parsePkt portsOnlyPkt.skb = none := by decide +kernel
  have hports : HasPorts portsOnlyPkt.skb.bytes := by decide +kernel
  obtain ⟨evt, hevt, -⟩ := exists_simpleReceive (fun _ => 0) hports
  rw [processPkt_of_none hparse, hevt] at hagree
  cases hagree

end NdpiObserve
