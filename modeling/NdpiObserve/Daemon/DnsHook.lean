import NdpiObserve.Capture
import NdpiObserve.Daemon.DnsReads
import NdpiObserve.Daemon.Engine

/-!
# The DNS hook reads captured bytes

`ndpi_engine_process` passes every UDP packet from port 53 to the DNS parser, with the length
field of the event. The field is the number of captured bytes, except for events without
captured bytes, where it is a mark with the frame length in it.

## Main definitions

* `FlowEvent.ReadsCaptured`: the hook looks at captured bytes only.

## Main results

* `Produced.readsCaptured_iff`: for which events it does.
-/

namespace NdpiObserve

/-- The DNS hook reads captured bytes only: what it parses, it parses within the first `captured`
bytes of the buffer, and without captured bytes it leaves the DNS cache alone. -/
def FlowEvent.ReadsCaptured (evt : FlowEvent) (captured : ℕ) : Prop :=
  (evt.fromDnsPort = true → ∃ l, dnsParse (captureReader captured evt.pktData) evt.dataLen = .ok l ∧
      dnsParse (memoryReader evt.pktData) evt.dataLen = .ok l) ∧
    (captured = 0 → ∀ (e : Engine) a, (e.observeDns evt a).dnsCache = e.dnsCache)

/-- With a length of at least 40 the parser reads the first byte. -/
theorem dnsParse_captureReader_zero {mem : ℕ → UInt8} {pktLen : UInt32}
    (h : 40 ≤ pktLen.toNat) :
    dnsParse (captureReader 0 mem) pktLen = .error (.outOfBounds 0) := by
  have hforty : ¬ pktLen < 40 := by
    rw [UInt32.lt_iff_toNat_lt, not_lt]
    exact h
  rw [dnsParse, if_neg hforty]
  rfl

/-- **When the DNS hook reads captured bytes only.** The events that the kernel program and
`ndpid-simple` produce have at most 512 captured bytes, and the hook reads only these unless the
event comes from UDP port 53 and has no captured bytes. -/
theorem Produced.readsCaptured_iff {evt : FlowEvent} {captured : ℕ} (h : Produced evt captured) :
    captured ≤ 512 ∧
      (evt.ReadsCaptured captured ↔ (evt.fromDnsPort = true → captured ≠ 0)) := by
  refine ⟨h.captured_le, ⟨fun hreads hport hzero => ?_, fun hport => ⟨fun hdns => ?_, ?_⟩⟩⟩
  · -- the parser is given the mark as a length
    obtain ⟨l, hl, -⟩ := hreads.1 hport
    have hmark := h.dataLen_of_zero hzero
    subst hzero
    rw [dnsParse_captureReader_zero (le_trans (by decide) hmark)] at hl
    cases hl
  · obtain ⟨hlen, hmax⟩ := h.dataLen_of_pos (hport hdns)
    have hcovers : (captureReader captured evt.pktData).Covers evt.dataLen.toNat := by
      rw [hlen]
      exact captureReader_covers captured evt.pktData
    obtain ⟨l, hl⟩ := exists_dnsParse_eq_ok hcovers (by omega)
    exact ⟨l, hl, dnsParse_memoryReader hl⟩
  · intro hzero e a
    have hno : evt.fromDnsPort = false := by
      by_contra hne
      exact hport (by simpa using hne) hzero
    rw [Engine.observeDns, hno]
    rfl

/-- A DNS response with the address 1.2.3.4 for abc.io, from its IP header on. -/
def dnsResponse : Bytes :=
  [0x45, 0, 0, 68, 0, 0, 0, 0, 64, 17, 0, 0, 8, 8, 8, 8, 10, 0, 0, 1,
    0, 53, 0x9C, 0x40, 0, 48, 0, 0, 1, 2, 0x81, 0x80, 0, 1, 0, 1, 0, 0, 0, 0,
    3, 97, 98, 99, 2, 105, 111, 0, 0, 1, 0, 1,
    0xC0, 12, 0, 1, 0, 1, 0, 0, 0, 60, 0, 4, 1, 2, 3, 4]

/-- The Ethernet header of the sample frames. -/
def ethHeader : Bytes := [2, 0, 0, 0, 0, 1, 2, 0, 0, 0, 0, 2, 0x08, 0]

/-- The response in a frame that `ndpid-simple` receives: the hook reads its 68 captured bytes
only. -/
theorem dnsResponse_readsCaptured :
    ∃ evt, simpleEvent (ethHeader ++ dnsResponse) (fun _ => 0) = some (evt, 68) ∧
      evt.fromDnsPort = true ∧ evt.ReadsCaptured 68 := by
  refine ⟨_, rfl, by decide +kernel, ?_⟩
  have hproduced := Produced.simple (ethHeader ++ dnsResponse) (fun _ => 0) _ 68 rfl
  exact hproduced.readsCaptured_iff.2.mpr fun _ => by decide

/-- A frame of 60 bytes, too short for the smallest tier: UDP from port 53 of 8.8.8.8 to port
40000 of 10.0.0.1, with 18 bytes of payload. -/
def shortDnsFrame : Bytes :=
  ethHeader ++ [0x45, 0, 0, 46, 0, 0, 0, 0, 64, 17, 0, 0, 8, 8, 8, 8, 10, 0, 0, 1,
    0, 53, 0x9C, 0x40, 0, 26, 0, 0] ++ List.replicate 18 0

def shortDnsSkb : Skb := ⟨shortDnsFrame, 60, by decide⟩

/-- The flow of `shortDnsSkb`. -/
def shortDnsKey : FlowKey :=
  { srcIp := 0x08080808, dstIp := 0x0100000A, srcPort := 0x3500, dstPort := 0x409C
    proto := ipprotoUdp }

/-- The event of `shortDnsSkb`, over a buffer that holds `stale`. -/
def shortDnsEvent (stale : ℕ → UInt8) : FlowEvent :=
  sendToRingbuf shortDnsSkb shortDnsKey ethHlen 46 0 stale

theorem produced_shortDnsEvent (stale : ℕ → UInt8) : Produced (shortDnsEvent stale) 0 :=
  .ringbuf shortDnsSkb shortDnsKey 46 0 stale (by decide +kernel)

/-- The hook reads the first byte of the buffer of an event without captured bytes; when the
buffer still holds an old response, its address enters the cache. -/
theorem shortDnsEvent_not_readsCaptured :
    (Produced (shortDnsEvent fun _ => 0) 0 ∧ ¬ (shortDnsEvent fun _ => 0).ReadsCaptured 0) ∧
      let evt := shortDnsEvent fun i => dnsResponse.getD i 0
      Produced evt 0 ∧
        ((ndpiEngineInit.observeDns evt {}).dnsCache (dnsHash 0x04030201)).hostname =
          text "abc.io" := by
  refine ⟨⟨produced_shortDnsEvent _, fun h => ?_⟩, produced_shortDnsEvent _, by decide +kernel⟩
  obtain ⟨l, hl, -⟩ := h.1 (by decide +kernel)
  rw [dnsParse_captureReader_zero (by decide +kernel)] at hl
  cases hl

end NdpiObserve
