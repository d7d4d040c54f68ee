import NdpiObserve.Daemon.PacketPatch

/-!
# The record in the patched packet

The patch is to show nDPI a packet that is consistent in itself: its IP total length within the
captured bytes, and its TLS record within the total length. Both lengths are cut to the captured
bytes. In a padded frame these go beyond the total length, and so may the record.

## Main definitions

* `PacketCopy.totLen`, `PacketCopy.recordEnd`: the total length, and where the record ends.
* `FlowEvent.ShowsRecord`: the start of a TLS handshake record was captured.
* `SelfConsistent`: the lengths of a packet agree.

## Main results

* `PacketCopy.totLen_clampTotal`, `PacketCopy.recordEnd_clampRecord`: the lengths after the patch.
* `Produced.selfConsistent_iff`: for which events the patched packet is consistent.
-/

namespace NdpiObserve

namespace PacketCopy

/-! ### The two lengths -/

/-- The IP total length. -/
def totLen (mem : ℕ → UInt8) : ℕ := (be16 (mem 2) (mem 3)).toNat

/-- Where the record behind the TCP header ends. -/
def recordEnd (mem : ℕ → UInt8) : ℕ :=
  l7off mem + 5 + (be16 (mem (l7off mem + 3)) (mem (l7off mem + 4))).toNat

theorem be16_store16 (mem : ℕ → UInt8) (i : ℕ) (x : UInt16) :
    be16 (store16 mem i x i) (store16 mem i x (i + 1)) = x := by
  rw [store16_self, store16_succ, be16_bytes]

theorem totLen_clampTotal (mem : ℕ → UInt8) (len : UInt16) :
    totLen (clampTotal mem len) = min (totLen mem) len.toNat := by
  rw [clampTotal]
  split
  case isTrue hlong =>
    have hlt : len.toNat < totLen mem := UInt16.lt_iff_toNat_lt.mp hlong
    rw [totLen, be16_store16, min_eq_right hlt.le]
  case isFalse hshort =>
    have hle : totLen mem ≤ len.toNat := UInt16.le_iff_toNat_le.mp (UInt16.not_lt.mp hshort)
    rw [min_eq_left hle]

section Record

variable {mem : ℕ → UInt8} {n : ℕ}

/-- The record is cut in the payload, behind the two headers. -/
theorem clampRecord_of_lt (mem : ℕ → UInt8) (n : ℕ) {i : ℕ} (hi : i < l7off mem + 3) :
    clampRecord mem n i = mem i := by
  rw [clampRecord]
  split
  · exact store16_of_ne mem _ (by omega) (by omega)
  · rfl

/-- The clamp of the record moves neither header. -/
theorem headers_clampRecord (hdoff : 20 ≤ doff mem) (n : ℕ) :
    ihl (clampRecord mem n) = ihl mem ∧ doff (clampRecord mem n) = doff mem := by
  have hoff : l7off mem = ihl mem + doff mem := rfl
  have hfirst : ihl (clampRecord mem n) = ihl mem := by
    rw [ihl, ihl, clampRecord_of_lt mem n (by omega)]
  refine ⟨hfirst, ?_⟩
  rw [doff, doff, hfirst, clampRecord_of_lt mem n (by omega)]

theorem totLen_clampRecord (hdoff : 20 ≤ doff mem) (n : ℕ) :
    totLen (clampRecord mem n) = totLen mem := by
  have hoff : l7off mem = ihl mem + doff mem := rfl
  rw [totLen, totLen, clampRecord_of_lt mem n (by omega), clampRecord_of_lt mem n (by omega)]

theorem recordEnd_clampTotal (hihl : 20 ≤ ihl mem) (len : UInt16) :
    recordEnd (clampTotal mem len) = recordEnd mem := by
  obtain ⟨hoff, -⟩ := overlong_clampTotal mem len 0 hihl
  have hstart : l7off mem = ihl mem + doff mem := rfl
  rw [recordEnd, recordEnd, hoff, clampTotal_of_ne mem len (by omega) (by omega),
    clampTotal_of_ne mem len (by omega) (by omega)]

theorem recordEnd_clampRecord (hdoff : 20 ≤ doff mem)
    (hkind : mem (l7off mem) = 0x16) (hroom : l7off mem + 5 ≤ n) (hn : n < 2 ^ 16) :
    recordEnd (clampRecord mem n) = min (recordEnd mem) n := by
  have hend : recordEnd mem =
      l7off mem + 5 + (be16 (mem (l7off mem + 3)) (mem (l7off mem + 4))).toNat := rfl
  obtain ⟨hfirst, hsecond⟩ := headers_clampRecord hdoff n
  have hoff : l7off (clampRecord mem n) = l7off mem := by rw [l7off, hfirst, hsecond, l7off]
  rw [recordEnd, hoff, clampRecord]
  split
  case isTrue hlong =>
    have hlt := hlong.2.2
    rw [be16_store16, UInt16.toNat_ofNat', Nat.mod_eq_of_lt (by omega)]
    omega
  case isFalse hshort =>
    have hle : ¬n - l7off mem - 5 < (be16 (mem (l7off mem + 3)) (mem (l7off mem + 4))).toNat :=
      fun hlt => hshort ⟨hroom, hkind, hlt⟩
    omega

end Record

/-- The lengths are read from the first bytes. -/
theorem lengths_congr {m m' : ℕ → UInt8} {n : ℕ} (h : ∀ i < n, m i = m' i)
    (hoff : ihl m' + 12 < n) (hroom : l7off m' + 5 ≤ n) :
    l7off m = l7off m' ∧ totLen m = totLen m' ∧ recordEnd m = recordEnd m' := by
  have hfirst : ihl m = ihl m' := by rw [ihl, ihl, h 0 (by omega)]
  have hl7off : l7off m = l7off m' := by rw [l7off, l7off, doff, doff, hfirst, h _ hoff]
  refine ⟨hl7off, ?_, ?_⟩
  · rw [totLen, totLen, h 2 (by omega), h 3 (by omega)]
  · rw [recordEnd, recordEnd, hl7off, h _ (by omega), h _ (by omega)]

end PacketCopy

open PacketCopy

/-! ### Consistent packets -/

/-- The IP total length is at most the length of the packet, and the first TLS record ends within
it. -/
def SelfConsistent (pkt : Bytes) : Prop :=
  let mem := fun i => pkt.getD i 0
  totLen mem ≤ pkt.length ∧ recordEnd mem ≤ totLen mem

instance (pkt : Bytes) : Decidable (SelfConsistent pkt) := inferInstanceAs (Decidable (_ ∧ _))

/-- Behind a complete TCP header the `n` captured bytes have the start of a TLS handshake record,
inside the IP payload. -/
structure FlowEvent.ShowsRecord (evt : FlowEvent) (n : ℕ) : Prop where
  proto : evt.key.proto = 6
  doff : 20 ≤ doff evt.pktData
  kind : evt.pktData (l7off evt.pktData) = 0x16
  captured : l7off evt.pktData + 5 ≤ n
  payload : l7off evt.pktData + 5 ≤ totLen evt.pktData

/-- **When the patched packet is consistent.** For a record whose start was captured, the patched
packet is consistent unless the captured bytes and the record both go beyond the total length. -/
theorem Produced.selfConsistent_iff {evt : FlowEvent} {n : ℕ} (h : Produced evt n)
    (hshows : evt.ShowsRecord n) (stack : ℕ → UInt8) :
    SelfConsistent (patchedPacket evt stack) ↔
      n ≤ totLen evt.pktData ∨ recordEnd evt.pktData ≤ totLen evt.pktData := by
  have hroom := hshows.captured
  obtain ⟨hlen, hmin, hihl⟩ := h.header (by omega)
  have hmax := h.captured_le
  have hstart (m : ℕ → UInt8) : l7off m = ihl m + PacketCopy.doff m := rfl
  have hdoff := hshows.doff
  -- the copy before the patch
  have hcopy : ∀ i < n, localCopy evt stack i = evt.pktData i :=
    fun i hi => localCopy_of_lt evt stack (hlen.symm ▸ hi)
  have hoff₀ := hstart evt.pktData
  obtain ⟨hoff, htotal, hend⟩ := lengths_congr hcopy (by omega) hroom
  have hihl' : 20 ≤ ihl (localCopy evt stack) := by
    rw [ihl, hcopy 0 (by omega)]
    exact hihl
  have hdoff' : 20 ≤ PacketCopy.doff (localCopy evt stack) := by
    have hfirst : ihl (localCopy evt stack) = ihl evt.pktData := by
      rw [ihl, ihl, hcopy 0 (by omega)]
    have hoff₁ := hstart (localCopy evt stack)
    omega
  have hkind : localCopy evt stack (l7off (localCopy evt stack)) = 0x16 := by
    rw [hoff, hcopy _ (by omega)]
    exact hshows.kind
  rw [← hoff] at hroom
  rw [← htotal, ← hend, SelfConsistent]
  -- the patched copy
  have hpatched : ∀ i < n, (patchedPacket evt stack).getD i 0 =
      clampRecord (clampTotal (localCopy evt stack) evt.actualDataLen) n i := by
    intro i hi
    rw [patchedPacket_eq, hlen, List.getD_eq_getElem _ _ (by simpa using hi), List.getElem_map,
      List.getElem_range, FlowEvent.patched, if_pos hshows.proto, hlen]
  have hlength : (patchedPacket evt stack).length = n := by
    rw [patchedPacket_eq, hlen, List.length_map, List.length_range]
  generalize localCopy evt stack = m at hihl' hdoff' hkind hroom hpatched ⊢
  have hstart₀ := hstart m
  -- the copy after the clamp of the total length
  have htotal' : totLen (clampTotal m evt.actualDataLen) = min (totLen m) n := by
    rw [totLen_clampTotal, hlen]
  have hend' := recordEnd_clampTotal hihl' evt.actualDataLen
  obtain ⟨hoff', -⟩ := overlong_clampTotal m evt.actualDataLen n hihl'
  have hihl₁ := ihl_clampTotal m evt.actualDataLen
  have hstart₁ := hstart (clampTotal m evt.actualDataLen)
  have hkind' : clampTotal m evt.actualDataLen (l7off (clampTotal m evt.actualDataLen)) = 0x16 := by
    rw [hoff', clampTotal_of_ne m _ (by omega) (by omega)]
    exact hkind
  generalize clampTotal m evt.actualDataLen = c at *
  -- the copy after the clamp of the record
  have hdoff₁ : 20 ≤ PacketCopy.doff c := by omega
  have htotal₂ := totLen_clampRecord hdoff₁ n
  have hend₂ := recordEnd_clampRecord hdoff₁ hkind' (by omega) (by omega : n < 2 ^ 16)
  obtain ⟨hihl₂, hdoff₂⟩ := headers_clampRecord hdoff₁ n
  have hstart₂ := hstart (clampRecord c n)
  obtain ⟨-, htotal₃, hend₃⟩ := lengths_congr hpatched (by omega) (by omega)
  rw [htotal₃, hend₃, htotal₂, hend₂, htotal', hend', hlength, le_min_iff, min_le_iff, min_le_iff]
  omega

/-! ### Sample frames -/

/-- A TCP frame with an IP total length, whose 60 bytes behind the Ethernet header end with the
start of a TLS record of 100 bytes and 15 more bytes. -/
def tlsFrame (total : UInt8) : Skb where
  bytes := List.replicate 12 0 ++
    [0x08, 0, 0x45, 0, 0, total, 0, 0, 0, 0, 64, 6, 0, 0, 10, 0, 0, 1, 10, 0, 0, 2,
      0x9C, 0x40, 1, 0xBB, 0, 0, 0, 0, 0, 0, 0, 0, 0x50, 0x18, 1, 0, 0, 0, 0, 0,
      0x16, 3, 1, 0, 100] ++ List.replicate 15 1
  headLen := 74
  headLen_le := by simp

/-- The event of a frame. -/
def tlsEvent (total : UInt8) : FlowEvent :=
  sendToRingbuf (tlsFrame total)
    { srcIp := 0x0100000A, dstIp := 0x0200000A, srcPort := 0x409C, dstPort := 0xBB01
      proto := ipprotoTcp }
    ethHlen total.toUInt16 0 fun _ => 0

theorem produced_tls : Produced (tlsEvent 60) 60 ∧ Produced (tlsEvent 45) 60 :=
  ⟨.ringbuf (tlsFrame 60) _ _ 0 (fun _ => 0) (by decide +kernel),
    .ringbuf (tlsFrame 45) _ _ 0 (fun _ => 0) (by decide +kernel)⟩

theorem showsRecord_tls : (tlsEvent 60).ShowsRecord 60 ∧ (tlsEvent 45).ShowsRecord 60 := by
  constructor
  all_goals constructor
  all_goals decide +kernel

/-- A record in a frame without padding is cut to the total length. -/
theorem selfConsistent_tls : SelfConsistent (patchedPacket (tlsEvent 60) fun _ => 0) :=
  (produced_tls.1.selfConsistent_iff showsRecord_tls.1 _).mpr (.inl (by decide +kernel))

/-- In a frame padded from 45 bytes to 60, the record ends in the padding. -/
theorem padded_record_inconsistent : ¬ ∀ (evt : FlowEvent) (n : ℕ) (stack : ℕ → UInt8),
    Produced evt n → evt.ShowsRecord n → SelfConsistent (patchedPacket evt stack) := by
  intro h
  have hconsistent := h (tlsEvent 45) 60 (fun _ => 0) produced_tls.2 showsRecord_tls.2
  rw [produced_tls.2.selfConsistent_iff showsRecord_tls.2] at hconsistent
  exact absurd hconsistent (by decide +kernel)

end NdpiObserve
