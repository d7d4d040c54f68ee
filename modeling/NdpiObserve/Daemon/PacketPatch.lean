import NdpiObserve.Daemon.Packet
import NdpiObserve.Kernel.FrontEnds

/-!
# What the packet patch reads and writes

Before a packet is given to nDPI, its local copy is patched: the IP total length and, for TCP, the
length of a TLS record are cut to the captured bytes. The place of the record is computed from two
header lengths of the packet, of which only that of the IP header has been checked. The byte with
the TCP data offset may lie behind the captured bytes, and a data offset of less than 20 bytes
places the record inside the TCP header.

## Main definitions

* `PacketCopy.l7off`, `PacketCopy.Overlong`: where a record is looked for, and whether it is cut.
* `FlowEvent.ReadsCopied`, `FlowEvent.PatchesLengths`: what the patch should read and write.

## Main results

* `PacketCopy.patchPacket_eq`: the patch in closed form.
* `Produced.readsCopied_iff`, `Produced.patchesLengths_iff`: for which events it does.
-/

namespace NdpiObserve

/-! ### The patch in closed form -/

namespace PacketCopy

/-- The length of the IP header. -/
def ihl (mem : ℕ → UInt8) : ℕ := ((mem 0 &&& 0xf) * 4).toNat

/-- The data offset of the TCP header. -/
def doff (mem : ℕ → UInt8) : ℕ := ((mem (ihl mem + 12) >>> 4) * 4).toNat

/-- Where the payload starts. -/
def l7off (mem : ℕ → UInt8) : ℕ := ihl mem + doff mem

/-- The payload starts with a TLS handshake record that goes beyond the first `len` bytes. -/
def Overlong (mem : ℕ → UInt8) (len : ℕ) : Prop :=
  l7off mem + 5 ≤ len ∧ mem (l7off mem) = 0x16 ∧
    len - l7off mem - 5 < (be16 (mem (l7off mem + 3)) (mem (l7off mem + 4))).toNat

instance (mem : ℕ → UInt8) (len : ℕ) : Decidable (Overlong mem len) :=
  inferInstanceAs (Decidable (_ ∧ _ ∧ _))

/-- The bytes of a 16-bit number stored at an index and behind it. -/
def store16 (mem : ℕ → UInt8) (i : ℕ) (x : UInt16) : ℕ → UInt8 :=
  Function.update (Function.update mem i (x >>> 8).toUInt8) (i + 1) (x &&& 0xFF).toUInt8

/-- The copy after the clamp of the IP total length. -/
def clampTotal (mem : ℕ → UInt8) (len : UInt16) : ℕ → UInt8 :=
  if be16 (mem 2) (mem 3) > len then store16 mem 2 len else mem

/-- The copy after the clamp of the TLS record length. -/
def clampRecord (mem : ℕ → UInt8) (len : ℕ) : ℕ → UInt8 :=
  if Overlong mem len then store16 mem (l7off mem + 3) (UInt16.ofNat (len - l7off mem - 5))
  else mem

theorem store16_of_ne (mem : ℕ → UInt8) {i j : ℕ} (x : UInt16) (h : j ≠ i) (h' : j ≠ i + 1) :
    store16 mem i x j = mem j := by
  rw [store16, Function.update_of_ne h', Function.update_of_ne h]

theorem store16_self (mem : ℕ → UInt8) (i : ℕ) (x : UInt16) :
    store16 mem i x i = (x >>> 8).toUInt8 := by
  rw [store16, Function.update_of_ne (by omega), Function.update_self]

theorem store16_succ (mem : ℕ → UInt8) (i : ℕ) (x : UInt16) :
    store16 mem i x (i + 1) = x.toUInt8 := by
  rw [store16, Function.update_self]
  refine UInt8.toNat_inj.mp ?_
  rw [UInt16.toNat_toUInt8, UInt16.toNat_toUInt8, UInt16.toNat_and]
  exact congrArg (· % 2 ^ 8) (Nat.and_two_pow_sub_one_eq_mod x.toNat 8) |>.trans (Nat.mod_mod _ _)

theorem store16_congr {m m' : ℕ → UInt8} {n : ℕ} (h : ∀ i < n, m i = m' i) (j : ℕ) (x : UInt16) :
    ∀ i < n, store16 m j x i = store16 m' j x i := by
  intro i hi
  simp only [store16, Function.update_apply, h i hi]

/-- A data offset is a number of words. -/
theorem doff_le (mem : ℕ → UInt8) : doff mem ≤ 60 ∧ 4 ∣ doff mem := by
  have hbound : ∀ b : UInt8, ((b >>> 4) * 4).toNat ≤ 60 ∧ 4 ∣ ((b >>> 4) * 4).toNat := by
    decide +kernel
  exact hbound _

/-- The clamp of the total length leaves all other bytes alone. -/
theorem clampTotal_of_ne (mem : ℕ → UInt8) (len : UInt16) {i : ℕ} (h₂ : i ≠ 2) (h₃ : i ≠ 3) :
    clampTotal mem len i = mem i := by
  rw [clampTotal]
  split
  · exact store16_of_ne mem len h₂ h₃
  · rfl

theorem ihl_clampTotal (mem : ℕ → UInt8) (len : UInt16) : ihl (clampTotal mem len) = ihl mem := by
  rw [ihl, ihl, clampTotal_of_ne mem len (by decide) (by decide)]

/-- Behind the first 20 bytes the clamp of the total length changes nothing. -/
theorem overlong_clampTotal (mem : ℕ → UInt8) (len : UInt16) (n : ℕ) (h : 20 ≤ ihl mem) :
    l7off (clampTotal mem len) = l7off mem ∧
      (Overlong (clampTotal mem len) n ↔ Overlong mem n) := by
  have hdoff : doff (clampTotal mem len) = doff mem := by
    rw [doff, doff, ihl_clampTotal, clampTotal_of_ne mem len (by omega) (by omega)]
  have hoff : l7off (clampTotal mem len) = l7off mem := by
    rw [l7off, l7off, hdoff, ihl_clampTotal]
  have hpos : 20 ≤ l7off mem := le_trans h (Nat.le_add_right _ _)
  refine ⟨hoff, ?_⟩
  rw [Overlong, Overlong, hoff, clampTotal_of_ne mem len (by omega) (by omega),
    clampTotal_of_ne mem len (by omega) (by omega), clampTotal_of_ne mem len (by omega) (by omega)]

private theorem toNat_l7off (a b : UInt8) :
    (a.toUInt16 + b.toUInt16).toNat = a.toNat + b.toNat := by
  have ha := a.toNat_lt
  have hb := b.toNat_lt
  rw [UInt16.toNat_add, UInt8.toNat_toUInt16, UInt8.toNat_toUInt16]
  omega

private theorem avail_eq {len off : UInt16} (h : off.toNat + 5 ≤ len.toNat) :
    len - off - 5 = UInt16.ofNat (len.toNat - off.toNat - 5) := by
  have hlen := len.toNat_lt
  have hsub : (len - off).toNat = len.toNat - off.toNat :=
    UInt16.toNat_sub_of_le _ _ (UInt16.le_iff_toNat_le.mpr (by omega))
  have hfive : (5 : UInt16).toNat = 5 := rfl
  have hle : (5 : UInt16) ≤ len - off := by
    rw [UInt16.le_iff_toNat_le]
    omega
  refine UInt16.toNat_inj.mp ?_
  rw [UInt16.toNat_sub_of_le _ _ hle, hsub, hfive, UInt16.toNat_ofNat', Nat.mod_eq_of_lt]
  omega

theorem clampTotal_congr {m m' : ℕ → UInt8} {n : ℕ} (h : ∀ i < n, m i = m' i) (hn : 4 ≤ n)
    (len : UInt16) : ∀ i < n, clampTotal m len i = clampTotal m' len i := by
  intro i hi
  rw [clampTotal, clampTotal, h 2 (by omega), h 3 (by omega)]
  split
  · exact store16_congr h _ _ i hi
  · exact h i hi

/-- The clamp of the record length looks at the first `len` bytes, if these include the data
offset. -/
theorem clampRecord_congr {m m' : ℕ → UInt8} {n : ℕ} (h : ∀ i < n, m i = m' i)
    (hn : ihl m + 12 < n) : ∀ i < n, clampRecord m n i = clampRecord m' n i := by
  have hihl : ihl m = ihl m' := by rw [ihl, ihl, h 0 (by omega)]
  have hoff : l7off m = l7off m' := by rw [l7off, l7off, doff, doff, h _ hn, hihl]
  have hlong : Overlong m n ↔ Overlong m' n := by
    rw [Overlong, Overlong, hoff]
    refine and_congr_right fun hroom => ?_
    rw [h _ (by omega), h _ (by omega), h _ (by omega)]
  intro i hi
  rw [clampRecord, clampRecord]
  simp only [hlong, hoff]
  split
  · exact store16_congr h _ _ i hi
  · exact h i hi

/-- **The patch.** On the whole local copy the patch is the two clamps. -/
theorem patchPacket_eq (mem : ℕ → UInt8) (len : UInt16) (proto : UInt8) :
    patchPacket memoryReader mem len proto =
      .ok (if proto = 6 then clampRecord (clampTotal mem len) len.toNat
        else clampTotal mem len) := by
  dsimp only [patchPacket, memoryReader, bind, Except.bind]
  have hclamp : (if be16 (mem 2) (mem 3) > len then
      Function.update (Function.update mem 2 (len >>> 8).toUInt8) 3 (len &&& 0xFF).toUInt8
    else mem) = clampTotal mem len := rfl
  rw [hclamp]
  generalize clampTotal mem len = m
  by_cases hproto : proto = 6
  · simp only [if_pos hproto]
    have hoff : (((m 0 &&& 0xf) * 4).toUInt16 +
        ((m (((m 0 &&& 0xf) * 4).toNat + 12) >>> 4) * 4).toUInt16).toNat = l7off m :=
      toNat_l7off _ _
    generalize ((m 0 &&& 0xf) * 4).toUInt16 +
      ((m (((m 0 &&& 0xf) * 4).toNat + 12) >>> 4) * 4).toUInt16 = off at hoff
    rw [hoff, clampRecord]
    by_cases hroom : l7off m + 5 ≤ len.toNat
    · have havail : len - off - 5 = UInt16.ofNat (len.toNat - l7off m - 5) := by
        rw [avail_eq (by omega), hoff]
      have hmod : (UInt16.ofNat (len.toNat - l7off m - 5)).toNat = len.toNat - l7off m - 5 := by
        have hlt := len.toNat_lt
        rw [UInt16.toNat_ofNat']
        omega
      have hgt : be16 (m (l7off m + 3)) (m (l7off m + 4)) >
          UInt16.ofNat (len.toNat - l7off m - 5) ↔
            len.toNat - l7off m - 5 < (be16 (m (l7off m + 3)) (m (l7off m + 4))).toNat := by
        rw [gt_iff_lt, UInt16.lt_iff_toNat_lt, hmod]
      rw [if_pos hroom, havail]
      by_cases hkind : m (l7off m) = 0x16
      · rw [if_pos hkind]
        by_cases hrecord : len.toNat - l7off m - 5 <
            (be16 (m (l7off m + 3)) (m (l7off m + 4))).toNat
        · rw [if_pos (hgt.mpr hrecord), if_pos ⟨hroom, hkind, hrecord⟩]
          rfl
        · rw [if_neg (mt hgt.mp hrecord), if_neg fun h => hrecord h.2.2]
      · rw [if_neg hkind, if_neg fun h => hkind h.2.1]
    · rw [if_neg hroom, if_neg fun h => hroom h.1]
  · rw [if_neg hproto, if_neg hproto]

/-- **What the patch reads.** On the first `len` bytes, of which there are at least 20, the patch
fails only when the byte with the TCP data offset lies behind them. -/
theorem patchPacket_captureReader (mem : ℕ → UInt8) {len : UInt16} (hlen : 20 ≤ len.toNat)
    (proto : UInt8) :
    patchPacket (captureReader len.toNat) mem len proto =
      if proto = 6 ∧ len.toNat ≤ ihl mem + 12 then .error (.outOfBounds (ihl mem + 12))
      else patchPacket memoryReader mem len proto := by
  have hread (m : ℕ → UInt8) {i : ℕ} (hi : i < len.toNat) :
      captureReader len.toNat m i = .ok (m i) := if_pos hi
  have hihl := ihl_clampTotal mem len
  have hclamp : (if be16 (mem 2) (mem 3) > len then
      Function.update (Function.update mem 2 (len >>> 8).toUInt8) 3 (len &&& 0xFF).toUInt8
    else mem) = clampTotal mem len := rfl
  dsimp only [patchPacket, memoryReader, bind, Except.bind]
  rw [hread mem (by omega : 2 < len.toNat)]
  dsimp only
  rw [hread mem (by omega : 3 < len.toNat)]
  dsimp only
  rw [hclamp, ← hihl]
  generalize clampTotal mem len = m
  have hfirst : ((m 0 &&& 0xf) * 4).toNat = ihl m := rfl
  by_cases hproto : proto = 6
  · rw [if_pos hproto, if_pos hproto, hread m (by omega : 0 < len.toNat)]
    dsimp only
    rw [hfirst]
    by_cases hoffset : len.toNat ≤ ihl m + 12
    · rw [if_pos ⟨hproto, hoffset⟩, captureReader, if_neg (not_lt.mpr hoffset)]
    · rw [if_neg fun h => hoffset h.2, hread m (not_le.mp hoffset)]
      dsimp only
      generalize ((m 0 &&& 0xf) * 4).toUInt16 + ((m (ihl m + 12) >>> 4) * 4).toUInt16 = off
      by_cases hroom : off.toNat + 5 ≤ len.toNat
      · rw [if_pos hroom, if_pos hroom, hread m (by omega : off.toNat < len.toNat)]
        dsimp only
        rw [hread m (by omega : off.toNat + 3 < len.toNat)]
        dsimp only
        rw [hread m (by omega : off.toNat + 4 < len.toNat)]
      · rw [if_neg hroom, if_neg hroom]
  · rw [if_neg hproto, if_neg hproto, if_neg fun h => hproto h.1]

end PacketCopy

/-! ### Produced events -/

open PacketCopy

/-- What the producers have checked: at least 20 bytes were captured, and the IP header has at
least 20 bytes. -/
theorem Produced.header {evt : FlowEvent} {n : ℕ} (h : Produced evt n) (hn : n ≠ 0) :
    evt.actualDataLen.toNat = n ∧ 20 ≤ n ∧ 20 ≤ ihl evt.pktData := by
  obtain ⟨hlen, hmax⟩ := h.dataLen_of_pos hn
  have hdata : evt.dataLen = UInt32.ofNat n := by rw [← hlen, UInt32.ofNat_toNat]
  have hfirst : ∀ b : UInt8, ((b &&& 0xf) * 4).toNat = (b &&& 0x0f).toNat * 4 := by
    decide +kernel
  refine ⟨actualDataLen_of_captured hdata hmax, ?_⟩
  rw [ihl, hfirst]
  cases h with
  | ringbuf s key ipTot ts stale h =>
    obtain ⟨⟨-, -, -, hihl, -⟩, -⟩ := hasPorts_of_parsePkt h
    have htiers := captureTier_cases s ethHlen
    rw [sendToRingbuf]
    cases htier : captureTier s ethHlen with
    | none => simp [htier] at hn
    | some m =>
      rw [htier] at htiers
      have hm : 20 ≤ m := by
        simp at htiers
        omega
      refine ⟨hm, ?_⟩
      dsimp only
      rw [if_pos (by omega)]
      exact hihl
  | simple frame behind evt n h =>
    have hports := hasPorts_of_simpleEvent h
    obtain ⟨-, -, -, hihl, -⟩ := hports
    refine ⟨(simpleEvent_dataLen h).2.1, ?_⟩
    dsimp only [simpleEvent] at h
    split_ifs at h
    obtain ⟨rfl, rfl⟩ := Prod.mk.inj (Option.some.inj h)
    dsimp only
    rw [if_pos (by omega)]
    exact hihl

/-! ### Sample events -/

/-- A TCP frame from port 5635 to port 443 with IP options, a data offset and a payload. -/
def tcpFrame (options : ℕ) (offset : UInt8) (payload : ℕ) : Bytes :=
  List.replicate 12 0 ++
    [0x08, 0, 0x45 + UInt8.ofNat (options / 4), 0, 0, UInt8.ofNat (40 + options + payload),
      0, 0, 0, 0, 64, 6, 0, 0, 10, 0, 0, 1, 10, 0, 0, 2] ++
    List.replicate options 1 ++
    [0x16, 3, 1, 0xBB, 0, 0, 0, 0, 0, 0, 0, 0, offset, 0x18, 1, 0, 0, 0, 0, 0] ++
    List.replicate payload 0

def tcpSkb (options : ℕ) (offset : UInt8) (payload : ℕ) : Skb where
  bytes := tcpFrame options offset payload
  headLen := (tcpFrame options offset payload).length
  headLen_le := le_rfl

/-- The key of the frames. -/
def tcpKey : FlowKey where
  srcIp := 0x0100000A
  dstIp := 0x0200000A
  srcPort := 0x0316
  dstPort := 0xBB01
  proto := ipprotoTcp

/-- The event of a frame, with 60 bytes captured. -/
def tcpFrameEvent (options : ℕ) (offset : UInt8) (payload : ℕ) : FlowEvent :=
  sendToRingbuf (tcpSkb options offset payload) tcpKey ethHlen
    (UInt16.ofNat (40 + options + payload)) 0 fun _ => 0

/-- 28 bytes of options and no payload: the data offset is the first byte not captured. -/
theorem produced_options : Produced (tcpFrameEvent 28 0x50 0) 60 :=
  .ringbuf (tcpSkb 28 0x50 0) tcpKey 68 0 (fun _ => 0) (by decide +kernel)

/-- A data offset of 0. -/
theorem produced_offset : Produced (tcpFrameEvent 0 0 20) 60 :=
  .ringbuf (tcpSkb 0 0 20) tcpKey 60 0 (fun _ => 0) (by decide +kernel)

/-- A complete TCP header. -/
theorem produced_tcp : Produced (tcpFrameEvent 0 0x50 20) 60 :=
  .ringbuf (tcpSkb 0 0x50 20) tcpKey 60 0 (fun _ => 0) (by decide +kernel)

/-! ### Reads and writes -/

/-- The local copy after the patch. -/
def FlowEvent.patched (evt : FlowEvent) (stack : ℕ → UInt8) : ℕ → UInt8 :=
  let m := clampTotal (localCopy evt stack) evt.actualDataLen
  if evt.key.proto = 6 then clampRecord m evt.actualDataLen.toNat else m

theorem patchedPacket_eq (evt : FlowEvent) (stack : ℕ → UInt8) :
    patchedPacket evt stack = (List.range evt.actualDataLen.toNat).map (evt.patched stack) := by
  rw [patchedPacket, patchPacket_eq]
  rfl

theorem localCopy_of_lt (evt : FlowEvent) (stack : ℕ → UInt8) {i : ℕ}
    (h : i < evt.actualDataLen.toNat) : localCopy evt stack i = evt.pktData i := if_pos h

/-- The patch looks at captured bytes only: every byte it reads was captured, and what the stack
held before makes no difference to nDPI. -/
def FlowEvent.ReadsCopied (evt : FlowEvent) (n : ℕ) (stack : ℕ → UInt8) : Prop :=
  (∃ mem, patchPacket (captureReader n) (localCopy evt stack) evt.actualDataLen evt.key.proto =
      .ok mem) ∧
    ∀ stack', patchedPacket evt stack' = patchedPacket evt stack

/-- **When the patch reads captured bytes only.** An event with captured bytes is patched by
captured bytes, unless it is TCP and the data offset lies behind them. -/
theorem Produced.readsCopied_iff {evt : FlowEvent} {n : ℕ} (h : Produced evt n) (hn : n ≠ 0)
    (stack : ℕ → UInt8) :
    evt.ReadsCopied n stack ↔ (evt.key.proto = 6 → ihl evt.pktData + 12 < n) := by
  obtain ⟨hlen, hmin, hihl⟩ := h.header hn
  have hcopy (stack : ℕ → UInt8) : ihl (localCopy evt stack) = ihl evt.pktData := by
    rw [ihl, ihl, localCopy_of_lt evt stack (by omega)]
  have hreads : (∃ mem, patchPacket (captureReader n) (localCopy evt stack) evt.actualDataLen
      evt.key.proto = .ok mem) ↔ (evt.key.proto = 6 → ihl evt.pktData + 12 < n) := by
    have hpatch := patchPacket_captureReader (localCopy evt stack) (hlen.symm ▸ hmin) evt.key.proto
    rw [hlen, hcopy] at hpatch
    rw [hpatch, patchPacket_eq]
    constructor
    · rintro ⟨mem, hmem⟩ hproto
      by_contra hfar
      rw [if_pos ⟨hproto, not_lt.mp hfar⟩] at hmem
      cases hmem
    · intro hoffset
      exact ⟨_, if_neg fun hfar => absurd (hoffset hfar.1) (not_lt.mpr hfar.2)⟩
  refine ⟨fun hcopied => hreads.mp hcopied.1, fun hoffset => ⟨hreads.mpr hoffset, fun stack' => ?_⟩⟩
  rw [patchedPacket_eq, patchedPacket_eq, hlen]
  refine List.map_congr_left fun i hi => ?_
  have hagree : ∀ j < n, clampTotal (localCopy evt stack') evt.actualDataLen j =
      clampTotal (localCopy evt stack) evt.actualDataLen j := by
    refine clampTotal_congr (fun j hj => ?_) (by omega) _
    rw [localCopy_of_lt evt stack' (by omega), localCopy_of_lt evt stack (by omega)]
  rw [FlowEvent.patched, FlowEvent.patched, hlen]
  split
  case isTrue hproto =>
    refine clampRecord_congr hagree ?_ i (List.mem_range.mp hi)
    rw [ihl_clampTotal, hcopy]
    exact hoffset hproto
  case isFalse => exact hagree i (List.mem_range.mp hi)

/-- The data offset of a TCP packet with 48 bytes of IP header lies behind the 60 captured bytes,
and what the stack holds there decides what nDPI is given. -/
theorem data_offset_not_captured : ∃ evt n, Produced evt n ∧ n ≠ 0 ∧
    (∀ stack, patchPacket (captureReader n) (localCopy evt stack) evt.actualDataLen evt.key.proto =
      .error (.outOfBounds n)) ∧
    patchedPacket evt (fun _ => 0) ≠ patchedPacket evt fun _ => 0x50 := by
  refine ⟨tcpFrameEvent 28 0x50 0, 60, produced_options, by decide, fun stack => ?_, ?_⟩
  · obtain ⟨hlen, -⟩ := produced_options.header (by decide)
    have hpatch := patchPacket_captureReader (localCopy (tcpFrameEvent 28 0x50 0) stack)
      (by rw [hlen]; decide) (tcpFrameEvent 28 0x50 0).key.proto
    have hihl : ihl (localCopy (tcpFrameEvent 28 0x50 0) stack) = 48 := by
      rw [ihl, localCopy_of_lt _ _ (by rw [hlen]; decide)]
      decide +kernel
    rw [hlen, hihl, if_pos ⟨rfl, by decide⟩] at hpatch
    exact hpatch
  · rw [patchedPacket_eq, patchedPacket_eq]
    decide +kernel

/-- A packet with a complete TCP header is patched by its captured bytes. -/
theorem readsCopied_tcp : (tcpFrameEvent 0 0x50 20).ReadsCopied 60 fun _ => 0 := by
  refine (produced_tcp.readsCopied_iff (by decide) _).mpr fun _ => ?_
  decide +kernel

/-- The patch writes length fields only: what nDPI is given differs from the captured bytes at most
in the IP total length and, for TCP, in the length of a TLS record behind a complete TCP
header. -/
def FlowEvent.PatchesLengths (evt : FlowEvent) (n : ℕ) (stack : ℕ → UInt8) : Prop :=
  let copy := localCopy evt stack
  (patchedPacket evt stack).length = n ∧
    ∀ i < n, (patchedPacket evt stack).getD i 0 ≠ evt.pktData i →
      i = 2 ∨ i = 3 ∨
        evt.key.proto = 6 ∧ (i = l7off copy + 3 ∨ i = l7off copy + 4) ∧ ihl copy + 20 ≤ i

/-- The data offset of a TCP packet is less than 20 bytes, an overlong record seems to start where
it points, and the new record length changes a byte of the TCP header. A data offset of 16 bytes
leaves only the high byte of the length in the header. -/
def FlowEvent.CutsHeader (evt : FlowEvent) (n : ℕ) (stack : ℕ → UInt8) : Prop :=
  let copy := localCopy evt stack
  evt.key.proto = 6 ∧ doff copy < 20 ∧ Overlong copy n ∧
    (doff copy = 16 → (copy (l7off copy + 3)).toNat ≠ (n - l7off copy - 5) / 256)

theorem toNat_highByte {k : ℕ} (h : k < 2 ^ 16) :
    (UInt16.ofNat k >>> 8).toUInt8.toNat = k / 256 := by
  rw [UInt16.toNat_toUInt8, UInt16.toNat_shiftRight, UInt16.toNat_ofNat', Nat.shiftRight_eq_div_pow]
  simp only [UInt16.reduceToNat, Nat.reduceMod]
  omega

/-- A cut record has a new length. -/
theorem Overlong.changes {m : ℕ → UInt8} {n : ℕ} (h : Overlong m n) :
    clampRecord m n (l7off m + 3) ≠ m (l7off m + 3) ∨
      clampRecord m n (l7off m + 4) ≠ m (l7off m + 4) := by
  by_contra hsame
  obtain ⟨hhigh, hlow⟩ := not_or.mp hsame
  rw [not_not, clampRecord, if_pos h] at hhigh hlow
  rw [store16_self] at hhigh
  rw [store16_succ] at hlow
  have hlong := h.2.2
  rw [← hhigh, ← hlow, be16_bytes, UInt16.toNat_ofNat', Nat.mod_eq_of_lt (by omega)] at hlong
  exact lt_irrefl _ hlong

/-- Below the record nothing changes but the total length, and in the record only its length. -/
theorem clampRecord_ne {m : ℕ → UInt8} {n i : ℕ} (h : clampRecord m n i ≠ m i) :
    Overlong m n ∧ (i = l7off m + 3 ∨ i = l7off m + 4) := by
  rw [clampRecord] at h
  split at h
  case isFalse => exact absurd rfl h
  case isTrue hlong =>
    refine ⟨hlong, ?_⟩
    by_contra hi
    obtain ⟨h₃, h₄⟩ := not_or.mp hi
    exact h (store16_of_ne m _ h₃ h₄)

theorem clampRecord_high {m : ℕ → UInt8} {n : ℕ} (h : Overlong m n) (hn : n < 2 ^ 16) :
    clampRecord m n (l7off m + 3) = m (l7off m + 3) ↔
      (m (l7off m + 3)).toNat = (n - l7off m - 5) / 256 := by
  rw [clampRecord, if_pos h, store16_self, ← UInt8.toNat_inj, toNat_highByte (by omega), eq_comm]

/-- **When the patch writes length fields only.** An event with captured bytes keeps all bytes but
the length fields, unless the data offset of a TCP packet places the record inside the header. -/
theorem Produced.patchesLengths_iff {evt : FlowEvent} {n : ℕ} (h : Produced evt n) (hn : n ≠ 0)
    (stack : ℕ → UInt8) : evt.PatchesLengths n stack ↔ ¬evt.CutsHeader n stack := by
  obtain ⟨hlen, hmin, hihl⟩ := h.header hn
  have hmax := h.captured_le
  have hbyte (i : ℕ) (hi : i < n) : (patchedPacket evt stack).getD i 0 = evt.patched stack i := by
    rw [patchedPacket_eq, hlen, List.getD_eq_getElem _ _ (by simpa using hi), List.getElem_map,
      List.getElem_range]
  have hcopy (i : ℕ) (hi : i < n) : evt.pktData i = localCopy evt stack i :=
    (localCopy_of_lt evt stack (by omega)).symm
  have hheader : 20 ≤ ihl (localCopy evt stack) := by
    rw [ihl, ← hcopy 0 (by omega)]
    exact hihl
  rw [FlowEvent.PatchesLengths, FlowEvent.CutsHeader]
  have hpatched : evt.patched stack = if evt.key.proto = 6 then
      clampRecord (clampTotal (localCopy evt stack) evt.actualDataLen) n
    else clampTotal (localCopy evt stack) evt.actualDataLen := by
    rw [FlowEvent.patched, hlen]
  generalize localCopy evt stack = copy at hcopy hheader hpatched
  obtain ⟨hoff, hlong⟩ := overlong_clampTotal copy evt.actualDataLen n hheader
  have hsame {i : ℕ} (h₂ : i ≠ 2) (h₃ : i ≠ 3) :
      clampTotal copy evt.actualDataLen i = copy i := clampTotal_of_ne copy _ h₂ h₃
  generalize clampTotal copy evt.actualDataLen = m at hoff hlong hsame hpatched
  have hstart : l7off copy = ihl copy + doff copy := rfl
  obtain ⟨-, hdvd⟩ := doff_le copy
  constructor
  · rintro ⟨-, hframe⟩ ⟨hproto, hdoff, hover, hhigh⟩
    rw [if_pos hproto] at hpatched
    have hroom := hover.1
    -- a byte of the header changes
    obtain ⟨i, hi, hne, hinside⟩ : ∃ i, (i = l7off copy + 3 ∨ i = l7off copy + 4) ∧
        clampRecord m n i ≠ copy i ∧ i < ihl copy + 20 := by
      by_cases hsixteen : doff copy = 16
      · refine ⟨l7off copy + 3, .inl rfl, ?_, by omega⟩
        have hequal := clampRecord_high (hlong.mpr hover) (by omega)
        rw [hoff, hsame (by omega) (by omega)] at hequal
        exact mt hequal.mp (hhigh hsixteen)
      · have hchanges := Overlong.changes (hlong.mpr hover)
        rw [hoff, hsame (by omega) (by omega), hsame (by omega) (by omega)] at hchanges
        rcases hchanges with hne | hne
        · exact ⟨_, .inl rfl, hne, by omega⟩
        · exact ⟨_, .inr rfl, hne, by omega⟩
    have hlt : i < n := by omega
    have hcases := hframe i hlt (by rwa [hbyte i hlt, hpatched, hcopy i hlt])
    omega
  · intro hkeeps
    refine ⟨by rw [patchedPacket_eq, hlen, List.length_map, List.length_range], fun i hi hne => ?_⟩
    rw [hbyte i hi, hpatched, hcopy i hi] at hne
    by_cases htotal : i = 2 ∨ i = 3
    · exact htotal.imp_right .inl
    · obtain ⟨h₂, h₃⟩ := not_or.mp htotal
      refine .inr (.inr ?_)
      by_cases hproto : evt.key.proto = 6
      · rw [if_pos hproto, ← hsame h₂ h₃] at hne
        obtain ⟨hover, hplace⟩ := clampRecord_ne hne
        rw [hoff] at hplace
        refine ⟨hproto, hplace, ?_⟩
        by_contra hinside
        refine hkeeps ⟨hproto, by omega, hlong.mp hover, fun hsixteen hsame' => hne ?_⟩
        obtain rfl : i = l7off copy + 3 := by omega
        have hequal := clampRecord_high hover (by omega)
        rw [hoff, hsame h₂ h₃] at hequal
        rw [hsame h₂ h₃]
        exact hequal.mpr hsame'
      · rw [if_neg hproto] at hne
        exact absurd (hsame h₂ h₃) hne

/-- With a data offset of 0 the destination port is taken for the length of a record. -/
theorem destination_port_cut : ∃ evt n, Produced evt n ∧ n ≠ 0 ∧
    ¬evt.PatchesLengths n fun _ => 0 := by
  refine ⟨tcpFrameEvent 0 0 20, 60, produced_offset, by decide, fun hkeeps => ?_⟩
  have hbyte := hkeeps.2 23 (by decide)
  have hne : (patchedPacket (tcpFrameEvent 0 0 20) fun _ => 0).getD 23 0 ≠
      (tcpFrameEvent 0 0 20).pktData 23 := by
    rw [patchedPacket_eq]
    decide +kernel
  have hcases := hbyte hne
  have hihl : ihl (localCopy (tcpFrameEvent 0 0 20) fun _ => 0) = 20 := by decide +kernel
  omega

/-- A packet with a complete TCP header keeps its ports. -/
theorem patchesLengths_tcp : (tcpFrameEvent 0 0x50 20).PatchesLengths 60 fun _ => 0 := by
  refine (produced_tcp.patchesLengths_iff (by decide) _).mpr fun hcuts => ?_
  have hdoff : doff (localCopy (tcpFrameEvent 0 0x50 20) fun _ => 0) = 20 := by decide +kernel
  have hlt := hcuts.2.1
  omega

end NdpiObserve
