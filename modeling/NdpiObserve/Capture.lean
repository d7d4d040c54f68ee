import NdpiObserve.Types

/-!
# Where events come from

The two producers of events: the kernel program, which parses a packet and copies its first bytes
into the ring buffer (`process_pkt` and `send_to_ringbuf` of `bpf/ndpi_observe.bpf.c`), and the
receive loop of `ndpid-simple` (`daemon/main_noebpf.c`). A load from the packet that fails leaves
the event's buffer as it is, so what the buffer held before is an argument.

## Main definitions

* `Skb`, `parsePkt`: a packet, and the flow key and IP length that the kernel program finds.
* `sendToRingbuf`: the event of a packet, by the largest capture tier that fits.
* `simpleEvent`: the event that `ndpid-simple` builds from a frame.
* `Produced`: the events of both, with the number of bytes captured.
-/

namespace NdpiObserve

/-! ### The kernel program -/

/-- `struct __sk_buff`: the `skb->len` bytes of a packet from its Ethernet header on. The first
`headLen` of them lie between `data` and `data_end`. -/
structure Skb where
  bytes : Bytes
  headLen : ℕ
  headLen_le : headLen ≤ bytes.length

namespace Skb

/-- `skb->len`. -/
def len (s : Skb) : ℕ := s.bytes.length

/-- The byte at an offset from `data`. -/
def byte (s : Skb) (i : ℕ) : UInt8 := s.bytes.getD i 0

/-- The 16-bit field at an offset, as it stands in the packet. -/
def half (s : Skb) (i : ℕ) : UInt16 := load16 (s.byte i) (s.byte (i + 1))

/-- The 32-bit field at an offset, as it stands in the packet. -/
def word (s : Skb) (i : ℕ) : UInt32 :=
  load32 (s.byte i) (s.byte (i + 1)) (s.byte (i + 2)) (s.byte (i + 3))

end Skb

def ethPIp : UInt16 := 0x0800

/-- The size of the Ethernet header. -/
def ethHlen : ℕ := 14

/-- The first half of `process_pkt`: the flow key and the total length in the IP header, for TCP
and UDP over IPv4 whose headers lie in the linear part. -/
def parsePkt (s : Skb) : Option (FlowKey × UInt16) :=
  if s.headLen < ethHlen then none
  else if ntohs (s.half 12) ≠ ethPIp then none
  else if s.headLen < ethHlen + 20 then none
  else if s.byte 14 >>> 4 ≠ 4 then none
  else
    let ihl := (s.byte 14 &&& 0x0f).toNat * 4
    let l4 := ethHlen + ihl
    let proto := s.byte 23
    let key : FlowKey :=
      { srcIp := s.word 26, dstIp := s.word 30, srcPort := s.half l4, dstPort := s.half (l4 + 2)
        proto := proto }
    if ihl < 20 then none
    else if s.headLen < l4 then none
    else if proto = ipprotoTcp then
      if s.headLen < l4 + 20 then none else some (key, ntohs (s.half 16))
    else if proto = ipprotoUdp then
      if s.headLen < l4 + 8 then none else some (key, ntohs (s.half 16))
    else none

/-- The largest capture tier that `bpf_skb_load_bytes` can load from offset `off`. -/
def captureTier (s : Skb) (off : ℕ) : Option ℕ :=
  if off + flowEventDataLen ≤ s.len then some flowEventDataLen
  else if off + 256 ≤ s.len then some 256
  else if off + 128 ≤ s.len then some 128
  else if off + 60 ≤ s.len then some 60
  else none

/-- The event that `send_to_ringbuf` submits; `stale` is what the rest of its buffer holds. -/
def sendToRingbuf (s : Skb) (key : FlowKey) (ipOff : ℕ) (pktLen : UInt16) (ts : UInt64)
    (stale : ℕ → UInt8) : FlowEvent :=
  match captureTier s ipOff with
  | some n =>
    { key := key
      pktData := fun i => if i < n then s.byte (ipOff + i) else stale i
      pktLen := pktLen.toUInt32
      dataLen := UInt32.ofNat n
      tsNs := ts }
  | none =>
    { key := key
      pktData := stale
      pktLen := pktLen.toUInt32
      dataLen := noData ||| (UInt32.ofNat s.len &&& 0xFFFF)
      tsNs := ts }

/-! ### The receive loop -/

/-- The event that `ndpid-simple` builds from a received frame, and the number of bytes it copies;
`behind` is the memory behind the buffer of the event. -/
def simpleEvent (frame : Bytes) (behind : ℕ → UInt8) : Option (FlowEvent × ℕ) :=
  let b (i : ℕ) : UInt8 := frame.getD i 0
  let ip (i : ℕ) : UInt8 := b (ethHlen + i)
  let ipLen := frame.length - ethHlen
  if frame.length < ethHlen + 20 then none
  else if be16 (b 12) (b 13) ≠ ethPIp then none
  else if ip 0 >>> 4 ≠ 4 then none
  else
    let ihl := (ip 0 &&& 0xf).toNat * 4
    let proto := ip 9
    if ihl < 20 ∨ ipLen < ihl then none
    else if proto ≠ ipprotoTcp ∧ proto ≠ ipprotoUdp then none
    else if ipLen < ihl + 4 then none
    else
      let copyLen := min ipLen flowEventDataLen
      some
        ({ key :=
            { srcIp := load32 (ip 12) (ip 13) (ip 14) (ip 15)
              dstIp := load32 (ip 16) (ip 17) (ip 18) (ip 19)
              srcPort := load16 (ip ihl) (ip (ihl + 1))
              dstPort := load16 (ip (ihl + 2)) (ip (ihl + 3))
              proto := proto }
           pktData := fun i =>
            if i < copyLen then ip i else if i < flowEventDataLen then 0 else behind i
           pktLen := (be16 (ip 2) (ip 3)).toUInt32
           dataLen := UInt32.ofNat copyLen }, copyLen)

/-! ### Produced events -/

/-- The events that reach `ndpi_engine_process`, each with the number of bytes captured into its
buffer. -/
inductive Produced : FlowEvent → ℕ → Prop
  | ringbuf (s : Skb) (key : FlowKey) (ipTot : UInt16) (ts : UInt64) (stale : ℕ → UInt8)
      (h : parsePkt s = some (key, ipTot)) :
      Produced (sendToRingbuf s key ethHlen ipTot ts stale) ((captureTier s ethHlen).getD 0)
  | simple (frame : Bytes) (behind : ℕ → UInt8) (evt : FlowEvent) (n : ℕ)
      (h : simpleEvent frame behind = some (evt, n)) : Produced evt n

theorem captureTier_cases (s : Skb) (off : ℕ) :
    captureTier s off ∈ [some 512, some 256, some 128, some 60, none] := by
  rw [captureTier]
  split_ifs <;> simp [flowEventDataLen]

theorem simpleEvent_dataLen {frame : Bytes} {behind : ℕ → UInt8} {evt : FlowEvent} {n : ℕ}
    (h : simpleEvent frame behind = some (evt, n)) :
    evt.dataLen = UInt32.ofNat n ∧ 20 ≤ n ∧ n ≤ 512 := by
  dsimp only [simpleEvent] at h
  split_ifs at h with hlen
  obtain ⟨rfl, rfl⟩ := Prod.mk.inj (Option.some.inj h)
  refine ⟨rfl, le_min ?_ (by decide), min_le_right _ _⟩
  simp only [ethHlen] at hlen ⊢
  omega

/-- The length field of an event with captured bytes is their number. -/
theorem Produced.dataLen_of_pos {evt : FlowEvent} {n : ℕ} (h : Produced evt n) (hn : n ≠ 0) :
    evt.dataLen.toNat = n ∧ n ≤ 512 := by
  cases h with
  | ringbuf s key ipTot ts stale h =>
    have hcases := captureTier_cases s ethHlen
    rw [sendToRingbuf]
    cases htier : captureTier s ethHlen with
    | none => simp [htier] at hn
    | some m =>
      simp only [htier, List.mem_cons, Option.some.injEq, List.not_mem_nil, or_false,
        reduceCtorEq] at hcases
      rcases hcases with rfl | rfl | rfl | rfl <;> exact ⟨rfl, by decide⟩
  | simple frame behind evt n h =>
    obtain ⟨hlen, -, hmax⟩ := simpleEvent_dataLen h
    refine ⟨?_, hmax⟩
    rw [hlen, UInt32.toNat_ofNat']
    omega

/-- Only the kernel program produces events without captured bytes, and marks them in the length
field. -/
theorem Produced.dataLen_of_zero {evt : FlowEvent} {n : ℕ} (h : Produced evt n) (hn : n = 0) :
    noData.toNat ≤ evt.dataLen.toNat := by
  cases h with
  | ringbuf s key ipTot ts stale h =>
    have hcases := captureTier_cases s ethHlen
    rw [sendToRingbuf]
    cases htier : captureTier s ethHlen with
    | none =>
      dsimp only
      rw [UInt32.toNat_or]
      exact Nat.left_le_or
    | some m =>
      simp only [htier, List.mem_cons, Option.some.injEq, List.not_mem_nil, or_false,
        reduceCtorEq] at hcases
      simp only [htier, Option.getD_some] at hn
      omega
  | simple frame behind evt n h =>
    obtain ⟨-, hmin, -⟩ := simpleEvent_dataLen h
    omega

theorem Produced.captured_le {evt : FlowEvent} {n : ℕ} (h : Produced evt n) : n ≤ 512 := by
  rcases eq_or_ne n 0 with rfl | hn
  · exact Nat.zero_le _
  · exact (h.dataLen_of_pos hn).2

end NdpiObserve
