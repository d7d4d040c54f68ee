import Mathlib

/-!
# Shared data types

The types that the kernel program and the daemon share (`bpf/ndpi_obs_types.h`), and the bytes
and C strings they are made of. Fixed-width fields are Lean's fixed-width integers. Multi-byte
fields that the code copies out of a packet without conversion keep the byte order of a
little-endian host, so `ntohs` exchanges the two bytes of a port.

## Main definitions

* `FlowKey`, `FlowKey.toBytes`: the 5-tuple and its 16 bytes in memory.
* `FlowEvent`: a ring-buffer event, with the memory that starts at its capture buffer.
* `FlowState`: the classification states of both sides.
* `cString`, `strncpy`: the string a byte buffer holds.

## Main results

* `FlowKey.toBytes_injective`: keys with the same bytes are equal.
-/

namespace NdpiObserve

/-! ### Bytes -/

abbrev Bytes := List UInt8

/-- The bytes of a 16-bit field in memory. -/
def bytes16 (x : UInt16) : Bytes := [x.toUInt8, (x >>> 8).toUInt8]

/-- The bytes of a 32-bit field in memory. -/
def bytes32 (x : UInt32) : Bytes :=
  [x.toUInt8, (x >>> 8).toUInt8, (x >>> 16).toUInt8, (x >>> 24).toUInt8]

/-- The 16-bit field with these bytes in memory. -/
def load16 (a b : UInt8) : UInt16 := a.toUInt16 ||| (b.toUInt16 <<< 8)

/-- The 32-bit field with these bytes in memory. -/
def load32 (a b c d : UInt8) : UInt32 :=
  a.toUInt32 ||| (b.toUInt32 <<< 8) ||| (c.toUInt32 <<< 16) ||| (d.toUInt32 <<< 24)

/-- The 16-bit number in network byte order, `(a << 8) | b`. -/
def be16 (a b : UInt8) : UInt16 := (a.toUInt16 <<< 8) ||| b.toUInt16

/-- Network to host byte order. -/
def ntohs (x : UInt16) : UInt16 := (x <<< 8) ||| (x >>> 8)

theorem toNat_be16 (a b : UInt8) : (be16 a b).toNat = a.toNat * 256 + b.toNat := by
  have ha := a.toNat_lt
  have hshift : a.toNat * 2 ^ 8 % 2 ^ 16 = 2 ^ 8 * a.toNat := by omega
  simp only [be16, UInt16.toNat_or, UInt16.toNat_shiftLeft, UInt8.toNat_toUInt16,
    UInt16.reduceToNat, Nat.reduceMod, Nat.shiftLeft_eq]
  rw [hshift, ← Nat.two_pow_add_eq_or_of_lt b.toNat_lt, mul_comm]

theorem toNat_load32 (a b c d : UInt8) : (load32 a b c d).toNat =
    a.toNat + b.toNat * 2 ^ 8 + c.toNat * 2 ^ 16 + d.toNat * 2 ^ 24 := by
  have ha := a.toNat_lt
  have hb := b.toNat_lt
  have hc := c.toNat_lt
  have hd := d.toNat_lt
  have h₁ : b.toNat * 2 ^ 8 % 2 ^ 32 = 2 ^ 8 * b.toNat := by
    rw [mul_comm, Nat.mod_eq_of_lt (by omega)]
  have h₂ : c.toNat * 2 ^ 16 % 2 ^ 32 = 2 ^ 16 * c.toNat := by
    rw [mul_comm, Nat.mod_eq_of_lt (by omega)]
  have h₃ : d.toNat * 2 ^ 24 % 2 ^ 32 = 2 ^ 24 * d.toNat := by
    rw [mul_comm, Nat.mod_eq_of_lt (by omega)]
  simp only [load32, UInt32.toNat_or, UInt32.toNat_shiftLeft, UInt8.toNat_toUInt32,
    UInt32.reduceToNat, Nat.reduceMod, Nat.shiftLeft_eq]
  rw [h₁, h₂, h₃]
  rw [Nat.or_comm a.toNat, ← Nat.two_pow_add_eq_or_of_lt ha, Nat.or_comm _ (2 ^ 16 * c.toNat),
    ← Nat.two_pow_add_eq_or_of_lt (by omega), Nat.or_comm _ (2 ^ 24 * d.toNat),
    ← Nat.two_pow_add_eq_or_of_lt (by omega)]
  omega

theorem be16_bytes (x : UInt16) : be16 (x >>> 8).toUInt8 x.toUInt8 = x := by
  have hx := x.toNat_lt
  refine UInt16.toNat_inj.mp ?_
  rw [toNat_be16, UInt16.toNat_toUInt8, UInt16.toNat_toUInt8, UInt16.toNat_shiftRight,
    Nat.shiftRight_eq_div_pow]
  simp only [UInt16.reduceToNat, Nat.reduceMod]
  omega

theorem load32_bytes (x : UInt32) : load32 x.toUInt8 (x >>> 8).toUInt8 (x >>> 16).toUInt8
    (x >>> 24).toUInt8 = x := by
  have hx := x.toNat_lt
  refine UInt32.toNat_inj.mp ?_
  simp only [toNat_load32, UInt32.toNat_toUInt8, UInt32.toNat_shiftRight,
    Nat.shiftRight_eq_div_pow, UInt32.reduceToNat, Nat.reduceMod]
  omega

theorem bytes16_injective : Function.Injective bytes16 := by
  intro x y h
  simp only [bytes16, List.cons.injEq, and_true, ← UInt8.toNat_inj, UInt16.toNat_toUInt8,
    UInt16.toNat_shiftRight, Nat.shiftRight_eq_div_pow] at h
  have hx := x.toNat_lt
  have hy := y.toNat_lt
  refine UInt16.toNat_inj.mp ?_
  simp at h
  omega

theorem bytes32_injective : Function.Injective bytes32 := by
  intro x y h
  simp only [bytes32, List.cons.injEq, and_true, ← UInt8.toNat_inj, UInt32.toNat_toUInt8,
    UInt32.toNat_shiftRight, Nat.shiftRight_eq_div_pow] at h
  have hx := x.toNat_lt
  have hy := y.toNat_lt
  refine UInt32.toNat_inj.mp ?_
  simp at h
  omega

/-! ### C strings -/

/-- The string held by a buffer: its bytes before the first zero. -/
def cString (b : Bytes) : Bytes := b.takeWhile (· ≠ 0)

/-- The string in a zeroed buffer after `strncpy(buffer, src, n)`, for a buffer longer than
`n`. -/
def strncpy (src : Bytes) (n : ℕ) : Bytes := (cString src).take n

/-- The bytes of a text of the source, in UTF-8. -/
def text (s : String) : Bytes := s.toList.flatMap String.utf8EncodeChar

theorem text_eq_toByteArray (s : String) : text s = s.toByteArray.data.toList := by
  rw [text, ← String.utf8Encode_toList, List.utf8Encode, List.toList_data_toByteArray]

theorem length_text (s : String) : (text s).length = s.utf8ByteSize := by
  rw [text_eq_toByteArray]
  rfl

theorem cString_of_notMem {s : Bytes} (h : 0 ∉ s) : cString s = s :=
  List.takeWhile_eq_self_iff.mpr fun b hb => by simpa using ne_of_mem_of_not_mem hb h

theorem zero_notMem_cString (s : Bytes) : 0 ∉ cString s := fun h => by
  simpa using List.mem_takeWhile_imp h

/-! ### Flow keys -/

def flowEventDataLen : ℕ := 512

/-- Packets a flow may send to classification before it is given up. -/
def flowMaxClassifyPkts : UInt8 := 8

def ipprotoTcp : UInt8 := 6

def ipprotoUdp : UInt8 := 17

/-- `struct ndpi_obs_flow_key`: addresses and ports as they stand in the packet. -/
structure FlowKey where
  srcIp : UInt32
  dstIp : UInt32
  srcPort : UInt16
  dstPort : UInt16
  proto : UInt8
  pad0 : UInt8 := 0
  pad1 : UInt8 := 0
  pad2 : UInt8 := 0
deriving DecidableEq

/-- The 16 bytes of a key in memory. -/
def FlowKey.toBytes (k : FlowKey) : Bytes :=
  bytes32 k.srcIp ++ bytes32 k.dstIp ++ bytes16 k.srcPort ++ bytes16 k.dstPort ++
    [k.proto, k.pad0, k.pad1, k.pad2]

theorem FlowKey.toBytes_injective : Function.Injective FlowKey.toBytes := by
  intro a b h
  have hlen32 (x y : UInt32) : (bytes32 x).length = (bytes32 y).length := rfl
  have hlen16 (x y : UInt16) : (bytes16 x).length = (bytes16 y).length := rfl
  simp only [FlowKey.toBytes, List.append_assoc] at h
  obtain ⟨hs, h⟩ := List.append_inj h (hlen32 _ _)
  obtain ⟨hd, h⟩ := List.append_inj h (hlen32 _ _)
  obtain ⟨hsp, h⟩ := List.append_inj h (hlen16 _ _)
  obtain ⟨hdp, h⟩ := List.append_inj h (hlen16 _ _)
  simp only [List.cons.injEq, and_true] at h
  obtain ⟨hp, h0, h1, h2⟩ := h
  cases a
  cases b
  simp_all [bytes32_injective.eq_iff, bytes16_injective.eq_iff]

/-! ### Flow states and events -/

/-- `FLOW_STATE_*`. -/
inductive FlowState where
  | new
  | classifying
  | classified
  | gaveUp
deriving DecidableEq

/-- The two states in which a flow is decided. -/
def FlowState.isTerminal (s : FlowState) : Bool := s = .classified || s = .gaveUp

/-- `struct ndpi_obs_flow_event`. The buffer `pkt_data` is the memory it starts: `pktData i` is
`pkt_data[i]` for `i < 512` and whatever lies behind the buffer for larger `i`; only the first
bytes were captured, the others hold what was there before. -/
structure FlowEvent where
  key : FlowKey
  pktData : ℕ → UInt8
  pktLen : UInt32
  dataLen : UInt32
  tsNs : UInt64 := 0

/-- Marks an event for which no capture tier fitted the packet. -/
def noData : UInt32 := 0xDEAD0000

/-- The number of captured bytes, as `ndpi_engine_process` decodes `data_len`. -/
def FlowEvent.actualDataLen (evt : FlowEvent) : UInt16 :=
  if evt.dataLen &&& 0xFFFF0000 = noData then 0 else evt.dataLen.toUInt16

end NdpiObserve
