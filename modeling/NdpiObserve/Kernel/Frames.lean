import NdpiObserve.Kernel.FrontEnds

/-!
# The frames of a flow

An Ethernet frame with a TCP or UDP packet over IPv4, as it goes over the wire, with IP options and
whatever stands behind the ports. Both front-ends accept frames of this form only, and read the key
of the flow and the length of the packet that were written into them; they differ in how much must
stand behind the ports.

## Main definitions

* `Frame`, `Frame.wire`: such frames, and their bytes.

## Main results

* `Frame.frameKey_wire`, `exists_frame_wire`: what is read from a frame, and which bytes are one.
* `accepted_frames_iff`: the bytes that each front-end accepts.
-/

namespace NdpiObserve

/-! ### Fields -/

theorem load16_eq_be16 (a b : UInt8) : load16 a b = be16 b a := by
  rw [load16, be16, UInt16.or_comm]

theorem load16_bytes (x : UInt16) : load16 x.toUInt8 (x >>> 8).toUInt8 = x := by
  rw [load16_eq_be16, be16_bytes]

/-- The bytes of a field in network byte order. -/
theorem toUInt8_be16 (a b : UInt8) : (be16 a b >>> 8).toUInt8 = a ∧ (be16 a b).toUInt8 = b := by
  have ha := a.toNat_lt
  have hb := b.toNat_lt
  constructor
  · rw [← UInt8.toNat_inj, UInt16.toNat_toUInt8, UInt16.toNat_shiftRight, toNat_be16,
      Nat.shiftRight_eq_div_pow]
    simp only [UInt16.reduceToNat, Nat.reduceMod]
    omega
  · rw [← UInt8.toNat_inj, UInt16.toNat_toUInt8, toNat_be16]
    omega

theorem bytes16_load16 (a b : UInt8) : bytes16 (load16 a b) = [a, b] := by
  obtain ⟨hhigh, hlow⟩ := toUInt8_be16 b a
  rw [bytes16, load16_eq_be16, hlow, hhigh]

theorem bytes32_load32 (a b c d : UInt8) : bytes32 (load32 a b c d) = [a, b, c, d] := by
  have ha := a.toNat_lt
  have hb := b.toNat_lt
  have hc := c.toNat_lt
  have hd := d.toNat_lt
  have hbyte {k : ℕ} (hk : k < 32) {n : UInt32} (hn : n.toNat = k) :
      (load32 a b c d >>> n).toUInt8.toNat =
        (a.toNat + b.toNat * 2 ^ 8 + c.toNat * 2 ^ 16 + d.toNat * 2 ^ 24) / 2 ^ k % 2 ^ 8 := by
    rw [UInt32.toNat_toUInt8, UInt32.toNat_shiftRight, toNat_load32, Nat.shiftRight_eq_div_pow, hn,
      Nat.mod_eq_of_lt hk]
  have h₀ : (load32 a b c d).toUInt8 = a := by
    rw [← UInt8.toNat_inj, UInt32.toNat_toUInt8, toNat_load32]
    omega
  have h₁ : (load32 a b c d >>> 8).toUInt8 = b := by
    rw [← UInt8.toNat_inj, hbyte (k := 8) (by decide) rfl]
    omega
  have h₂ : (load32 a b c d >>> 16).toUInt8 = c := by
    rw [← UInt8.toNat_inj, hbyte (k := 16) (by decide) rfl]
    omega
  have h₃ : (load32 a b c d >>> 24).toUInt8 = d := by
    rw [← UInt8.toNat_inj, hbyte (k := 24) (by decide) rfl]
    omega
  rw [bytes32, h₀, h₁, h₂, h₃]

/-! ### Frames -/

/-- An Ethernet frame with a TCP or UDP packet over IPv4. The key has the addresses, the ports and
the protocol; `rest` is what stands behind the ports. -/
structure Frame where
  macs : Bytes
  tos : UInt8
  totLen : UInt16
  id : UInt16
  fragOff : UInt16
  ttl : UInt8
  check : UInt16
  key : FlowKey
  options : Bytes
  rest : Bytes
  macs_length : macs.length = 12
  options_mod : options.length % 4 = 0
  options_le : options.length ≤ 40
  proto : key.proto = ipprotoTcp ∨ key.proto = ipprotoUdp
  pad : key.pad0 = 0 ∧ key.pad1 = 0 ∧ key.pad2 = 0

namespace Frame

variable (f : Frame)

/-- The first byte of the IP header: the version and the length of the header in words. -/
def versionIhl : UInt8 := 0x40 + UInt8.ofNat (5 + f.options.length / 4)

/-- The EtherType and the IP header without options. -/
def header : Bytes :=
  [0x08, 0x00, f.versionIhl, f.tos, (f.totLen >>> 8).toUInt8, f.totLen.toUInt8,
    (f.id >>> 8).toUInt8, f.id.toUInt8, (f.fragOff >>> 8).toUInt8, f.fragOff.toUInt8, f.ttl,
    f.key.proto, (f.check >>> 8).toUInt8, f.check.toUInt8] ++ bytes32 f.key.srcIp ++
    bytes32 f.key.dstIp

/-- The transport header from its ports on. -/
def transport : Bytes := bytes16 f.key.srcPort ++ bytes16 f.key.dstPort ++ f.rest

/-- The packet. -/
def wire : Bytes := f.macs ++ (f.header ++ (f.options ++ f.transport))

/-- The length of the headers up to the transport header. -/
def l4 : ℕ := ethHlen + 20 + f.options.length

theorem wire_length : f.wire.length = f.l4 + 4 + f.rest.length := by
  have hheader : f.header.length = 22 := rfl
  have htransport : f.transport.length = 4 + f.rest.length := by
    rw [transport, List.length_append]
    rfl
  simp only [wire, l4, ethHlen, List.length_append, f.macs_length, hheader, htransport]
  omega

/-- The bytes behind the addresses of the Ethernet header. -/
theorem getD_wire (i : ℕ) :
    f.wire.getD (12 + i) 0 = (f.header ++ (f.options ++ f.transport)).getD i 0 := by
  rw [wire, List.getD_append_right _ _ _ _ (by rw [f.macs_length]; omega), f.macs_length,
    Nat.add_sub_cancel_left]

theorem getD_wire_transport (i : ℕ) : f.wire.getD (f.l4 + i) 0 = f.transport.getD i 0 := by
  have hheader : f.header.length = 22 := rfl
  have hindex : f.l4 + i = 12 + (22 + (f.options.length + i)) := by
    rw [l4, ethHlen]
    omega
  rw [hindex, getD_wire, List.getD_append_right _ _ _ _ (by omega), hheader,
    Nat.add_sub_cancel_left, List.getD_append_right _ _ _ _ (by omega), Nat.add_sub_cancel_left]

theorem versionIhl_eq : f.versionIhl >>> 4 = 4 ∧
    (f.versionIhl &&& 0x0f).toNat = 5 + f.options.length / 4 := by
  have hall : ∀ n < 11, (0x40 + UInt8.ofNat (5 + n)) >>> 4 = 4 ∧
      ((0x40 + UInt8.ofNat (5 + n)) &&& 0x0f).toNat = 5 + n := by decide
  have hle := f.options_le
  exact hall _ (by omega)

theorem ipHeaderLen_wire : ipHeaderLen f.wire = 20 + f.options.length := by
  have hfirst : f.wire.getD 14 0 = f.versionIhl := f.getD_wire 2
  have hmod := f.options_mod
  rw [ipHeaderLen, hfirst, f.versionIhl_eq.2]
  omega

/-- The frame has ports. -/
theorem hasPorts_wire : HasPorts f.wire := by
  have hlen := f.wire_length
  have hethHigh : f.wire.getD 12 0 = 0x08 := f.getD_wire 0
  have hethLow : f.wire.getD 13 0 = 0x00 := f.getD_wire 1
  have hfirst : f.wire.getD 14 0 = f.versionIhl := f.getD_wire 2
  have hproto : f.wire.getD 23 0 = f.key.proto := f.getD_wire 11
  refine ⟨?_, ?_, ?_, ?_, ?_, ?_⟩
  · rw [hlen, l4]
    omega
  · rw [hethHigh, hethLow]
    rfl
  · rw [hfirst, f.versionIhl_eq.1]
  · rw [f.ipHeaderLen_wire]
    omega
  · rw [hproto]
    exact f.proto
  · rw [f.ipHeaderLen_wire, hlen, l4]
    omega

/-- **What is read.** The key of the flow and the length of the packet are those of the frame. -/
theorem frameKey_wire : frameKey f.wire = f.key ∧ frameTotLen f.wire = f.totLen := by
  have hl4 : ethHlen + ipHeaderLen f.wire = f.l4 := by rw [f.ipHeaderLen_wire, l4, add_assoc]
  have hport (i : ℕ) : f.wire.getD (ethHlen + ipHeaderLen f.wire + i) 0 = f.transport.getD i 0 := by
    rw [← f.getD_wire_transport, hl4]
  have hsrcIp : load32 (f.wire.getD 26 0) (f.wire.getD 27 0) (f.wire.getD 28 0)
      (f.wire.getD 29 0) = f.key.srcIp := by
    rw [f.getD_wire 14, f.getD_wire 15, f.getD_wire 16, f.getD_wire 17]
    exact load32_bytes f.key.srcIp
  have hdstIp : load32 (f.wire.getD 30 0) (f.wire.getD 31 0) (f.wire.getD 32 0)
      (f.wire.getD 33 0) = f.key.dstIp := by
    rw [f.getD_wire 18, f.getD_wire 19, f.getD_wire 20, f.getD_wire 21]
    exact load32_bytes f.key.dstIp
  have hsrcPort : load16 (f.wire.getD (ethHlen + ipHeaderLen f.wire) 0)
      (f.wire.getD (ethHlen + ipHeaderLen f.wire + 1) 0) = f.key.srcPort := by
    rw [hport 1, ← Nat.add_zero (ethHlen + ipHeaderLen f.wire), hport 0]
    exact load16_bytes f.key.srcPort
  have hdstPort : load16 (f.wire.getD (ethHlen + ipHeaderLen f.wire + 2) 0)
      (f.wire.getD (ethHlen + ipHeaderLen f.wire + 3) 0) = f.key.dstPort := by
    rw [hport 2, hport 3]
    exact load16_bytes f.key.dstPort
  have hproto : f.wire.getD 23 0 = f.key.proto := f.getD_wire 11
  constructor
  · rw [frameKey, hsrcIp, hdstIp, hsrcPort, hdstPort, hproto]
    obtain ⟨h0, h1, h2⟩ := f.pad
    cases hkey : f.key
    simp_all
  · have hhigh : f.wire.getD 16 0 = (f.totLen >>> 8).toUInt8 := f.getD_wire 4
    have hlow : f.wire.getD 17 0 = f.totLen.toUInt8 := f.getD_wire 5
    rw [frameTotLen, hhigh, hlow, be16_bytes]

end Frame

/-! ### Which bytes are a frame -/

/-- The next bytes of a list, one by one. -/
theorem drop_eq_map_getD_append {bs : Bytes} {k n : ℕ} (h : k + n ≤ bs.length) :
    bs.drop k = (List.range n).map (fun i => bs.getD (k + i) 0) ++ bs.drop (k + n) := by
  have hnext : (List.range n).map (fun i => bs.getD (k + i) 0) = (bs.drop k).take n := by
    refine List.ext_getElem ?_ fun i hi hi' => ?_
    · rw [List.length_map, List.length_range, List.length_take, List.length_drop]
      omega
    · have hin : i < n := by simpa using hi
      rw [List.getElem_map, List.getElem_range, List.getElem_take, List.getElem_drop,
        List.getD_eq_getElem _ _ (by omega)]
  rw [hnext, ← List.drop_drop, List.take_append_drop]

/-- A first byte with version 4, by the length of the header. -/
theorem versionIhl_of_version {b : UInt8} (hver : b >>> 4 = 4) (hihl : 5 ≤ (b &&& 0x0f).toNat) :
    0x40 + UInt8.ofNat (5 + ((b &&& 0x0f).toNat * 4 - 20) / 4) = b := by
  have hall : ∀ b : UInt8, b >>> 4 = 4 → 0x40 + UInt8.ofNat (b &&& 0x0f).toNat = b := by
    decide +kernel
  have hwords : 5 + ((b &&& 0x0f).toNat * 4 - 20) / 4 = (b &&& 0x0f).toNat := by omega
  rw [hwords, hall b hver]

theorem length_options {bs : Bytes} (h : HasPorts bs) :
    ((bs.drop 34).take (ipHeaderLen bs - 20)).length = ipHeaderLen bs - 20 := by
  obtain ⟨-, -, -, hihl, -, hports⟩ := h
  rw [ethHlen] at hports
  rw [List.length_take, List.length_drop]
  omega

theorem length_options_mod {bs : Bytes} (h : HasPorts bs) :
    ((bs.drop 34).take (ipHeaderLen bs - 20)).length % 4 = 0 := by
  rw [length_options h, ipHeaderLen]
  omega

theorem length_options_le {bs : Bytes} (h : HasPorts bs) :
    ((bs.drop 34).take (ipHeaderLen bs - 20)).length ≤ 40 := by
  have hle := ipHeaderLen_le bs
  rw [length_options h]
  omega

theorem length_macs (bs : Bytes) :
    ((List.range 12).map fun i => bs.getD (0 + i) 0).length = 12 := by
  rw [List.length_map, List.length_range]

theorem proto_of_hasPorts {bs : Bytes} (h : HasPorts bs) :
    (frameKey bs).proto = ipprotoTcp ∨ (frameKey bs).proto = ipprotoUdp :=
  h.2.2.2.2.1

theorem pad_frameKey (bs : Bytes) :
    (frameKey bs).pad0 = 0 ∧ (frameKey bs).pad1 = 0 ∧ (frameKey bs).pad2 = 0 :=
  ⟨rfl, rfl, rfl⟩

/-- The frame that bytes with ports are: every field is read at its place. -/
def Frame.ofBytes {bs : Bytes} (h : HasPorts bs) : Frame where
  macs := (List.range 12).map fun i => bs.getD (0 + i) 0
  tos := bs.getD 15 0
  totLen := be16 (bs.getD 16 0) (bs.getD 17 0)
  id := be16 (bs.getD 18 0) (bs.getD 19 0)
  fragOff := be16 (bs.getD 20 0) (bs.getD 21 0)
  ttl := bs.getD 22 0
  check := be16 (bs.getD 24 0) (bs.getD 25 0)
  key := frameKey bs
  options := (bs.drop 34).take (ipHeaderLen bs - 20)
  rest := bs.drop (34 + (ipHeaderLen bs - 20) + 4)
  macs_length := length_macs bs
  options_mod := length_options_mod h
  options_le := length_options_le h
  proto := proto_of_hasPorts h
  pad := pad_frameKey bs

theorem Frame.header_ofBytes {bs : Bytes} (h : HasPorts bs) :
    (Frame.ofBytes h).header = (List.range 22).map fun i => bs.getD (12 + i) 0 := by
  have hfields := h
  obtain ⟨-, heth, hver, hihl, -, -⟩ := hfields
  have hfirst : (Frame.ofBytes h).versionIhl = bs.getD 14 0 := by
    rw [Frame.versionIhl, ofBytes, length_options h]
    refine versionIhl_of_version hver ?_
    rw [ipHeaderLen] at hihl
    omega
  have hhigh : bs.getD 12 0 = 0x08 := by
    rw [← (toUInt8_be16 (bs.getD 12 0) (bs.getD 13 0)).1, heth]
    rfl
  have hlow : bs.getD 13 0 = 0x00 := by
    rw [← (toUInt8_be16 (bs.getD 12 0) (bs.getD 13 0)).2, heth]
    rfl
  rw [Frame.header, hfirst]
  dsimp only [ofBytes, frameKey]
  rw [(toUInt8_be16 _ _).1, (toUInt8_be16 _ _).2, (toUInt8_be16 _ _).1, (toUInt8_be16 _ _).2,
    (toUInt8_be16 _ _).1, (toUInt8_be16 _ _).2, (toUInt8_be16 _ _).1, (toUInt8_be16 _ _).2,
    bytes32_load32, bytes32_load32]
  show ([0x08, 0x00] : Bytes) ++ ((List.range 20).map fun i => bs.getD (14 + i) 0) =
    [bs.getD 12 0, bs.getD 13 0] ++ ((List.range 20).map fun i => bs.getD (14 + i) 0)
  rw [hhigh, hlow]

theorem Frame.transport_ofBytes {bs : Bytes} (h : HasPorts bs) :
    (Frame.ofBytes h).transport = bs.drop (34 + (ipHeaderLen bs - 20)) := by
  have hfields := h
  obtain ⟨-, -, -, hihl, -, hports⟩ := hfields
  have hl4 : 14 + ipHeaderLen bs = 34 + (ipHeaderLen bs - 20) := by omega
  rw [ethHlen] at hports
  rw [Frame.transport]
  dsimp only [ofBytes, frameKey, ethHlen]
  rw [bytes16_load16, bytes16_load16, hl4]
  rw [drop_eq_map_getD_append (k := 34 + (ipHeaderLen bs - 20)) (n := 4) (by omega)]
  rfl

/-- **Frames with ports.** Bytes that have the ports of a TCP or UDP packet are a frame. -/
theorem exists_frame_wire {bs : Bytes} (h : HasPorts bs) : ∃ f : Frame, f.wire = bs := by
  have hlen : 34 ≤ bs.length := h.1
  refine ⟨Frame.ofBytes h, ?_⟩
  have hoptions : (Frame.ofBytes h).options = (bs.drop 34).take (ipHeaderLen bs - 20) := rfl
  have hmacs : (Frame.ofBytes h).macs = (List.range 12).map fun i => bs.getD (0 + i) 0 := rfl
  calc (Frame.ofBytes h).wire
    _ = (Frame.ofBytes h).macs ++ ((Frame.ofBytes h).header ++ bs.drop 34) := by
        rw [Frame.wire, Frame.transport_ofBytes, hoptions, ← List.drop_drop,
          List.take_append_drop]
    _ = (Frame.ofBytes h).macs ++ bs.drop 12 := by
        rw [Frame.header_ofBytes, ← drop_eq_map_getD_append (by omega)]
    _ = bs := by
        rw [hmacs]
        exact (drop_eq_map_getD_append (k := 0) (by omega)).symm

/-! ### The front-ends -/

/-- The least length of a transport header that the kernel program asks for. -/
def Frame.l4Min (f : Frame) : ℕ := if f.key.proto = ipprotoTcp then 20 else 8

theorem Frame.l4HeaderLen_wire (f : Frame) : l4HeaderLen f.wire = f.l4Min := by
  have hproto : f.wire.getD 23 0 = f.key.proto := f.getD_wire 11
  rw [l4HeaderLen, hproto, l4Min]

/-- The kernel program accepts the frames whose headers lie in the linear part, and reads what was
written into them. -/
theorem parsePkt_eq_some_iff (s : Skb) (k : FlowKey) (tot : UInt16) :
    parsePkt s = some (k, tot) ↔
      ∃ f : Frame, f.wire = s.bytes ∧ f.l4 + f.l4Min ≤ s.headLen ∧ f.key = k ∧ f.totLen = tot := by
  have hread (f : Frame) (hwire : f.wire = s.bytes) :
      frameKey s.bytes = f.key ∧ frameTotLen s.bytes = f.totLen := by
    rw [← hwire]
    exact f.frameKey_wire
  have hheaders (f : Frame) (hwire : f.wire = s.bytes) :
      ethHlen + ipHeaderLen s.bytes + l4HeaderLen s.bytes = f.l4 + f.l4Min := by
    rw [← hwire, f.ipHeaderLen_wire, f.l4HeaderLen_wire, Frame.l4, add_assoc ethHlen 20]
  constructor
  · intro h
    obtain ⟨hports, hl4⟩ := hasPorts_of_parsePkt h
    obtain ⟨f, hwire⟩ := exists_frame_wire hports
    obtain ⟨hkey, htot⟩ := hread f hwire
    rw [parsePkt_of_hasPorts hports hl4, Option.some.injEq, Prod.mk.injEq] at h
    exact ⟨f, hwire, hheaders f hwire ▸ hl4, hkey ▸ h.1, htot ▸ h.2⟩
  · rintro ⟨f, hwire, hl4, rfl, rfl⟩
    obtain ⟨hkey, htot⟩ := hread f hwire
    rw [parsePkt_of_hasPorts (hwire ▸ f.hasPorts_wire) (hheaders f hwire ▸ hl4), hkey, htot]

/-- **Accepted frames.** Each front-end accepts nothing but Ethernet frames with TCP or UDP over
IPv4, with or without options, and reads the key and the length that were written into them: the
kernel program those whose headers lie in the linear part, the receive loop all of them. The event
of the receive loop holds the packet, up to the size of the buffer. -/
theorem accepted_frames_iff (k : FlowKey) (tot : UInt16) :
    (∀ s : Skb, parsePkt s = some (k, tot) ↔ ∃ f : Frame,
      f.wire = s.bytes ∧ f.l4 + f.l4Min ≤ s.headLen ∧ f.key = k ∧ f.totLen = tot) ∧
    ∀ (bs : Bytes) (behind : ℕ → UInt8),
      (∃ evt, simpleReceive bs behind = some evt ∧ evt.key = k ∧ evt.pktLen = tot.toUInt32 ∧
        evt.captured = (bs.drop ethHlen).take flowEventDataLen) ↔
      ∃ f : Frame, f.wire = bs ∧ f.key = k ∧ f.totLen = tot := by
  refine ⟨fun s => parsePkt_eq_some_iff s k tot, fun bs behind => ⟨?_, ?_⟩⟩
  · rintro ⟨evt, hevt, hkey, htot, -⟩
    have hports : HasPorts bs := by
      by_contra hnot
      rw [simpleReceive_eq_none behind hnot] at hevt
      cases hevt
    obtain ⟨f, rfl⟩ := exists_frame_wire hports
    obtain ⟨evt', hevt', hkey', htot', -⟩ := exists_simpleReceive behind hports
    obtain rfl : evt' = evt := Option.some.inj (hevt'.symm.trans hevt)
    refine ⟨f, rfl, ?_, ?_⟩
    · rw [← hkey, hkey', f.frameKey_wire.1]
    · rw [htot', f.frameKey_wire.2] at htot
      exact UInt16.toUInt32_inj.mp htot
  · rintro ⟨f, rfl, rfl, rfl⟩
    obtain ⟨evt, hevt, hkey, htot, hcaptured⟩ := exists_simpleReceive behind f.hasPorts_wire
    obtain ⟨hread, hlen⟩ := f.frameKey_wire
    exact ⟨evt, hevt, hkey.trans hread, by rw [htot, hlen], hcaptured⟩

end NdpiObserve
