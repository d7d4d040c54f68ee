import NdpiObserve.Daemon.DnsWire

/-!
# The answer records of a DNS message

The parser walks over the answer records of a message in wire format. Whatever the owners, the
types and the lengths of the records are, it inserts the addresses of the `A` records, in order.

## Main definitions

* `recordAnswer`: the insertion that a record stands for.

## Main results

* `answerRecords_wire`: the walk over records that lie inside the message.
* `answerRecords_captured`: the walk over records up to the end of the captured bytes.
-/

namespace NdpiObserve

open Dns

/-- An IPv4 address of four bytes, as it stands in the packet. -/
def addressOf : Bytes → UInt32
  | [a, b, c, d] => load32 a b c d
  | _ => 0

/-- What a record stands for: an `A` record with an address maps it to the question name. -/
def recordAnswer (qname : Bytes) (r : Record) : Option DnsAnswer :=
  if r.type = 1 ∧ r.rdata.length = 4 then
    some { ip := addressOf r.rdata, name := qname, ttl := r.ttl }
  else none

section Parser

variable {rd : Reader} {base : ℕ} {dnsLen : UInt32}

theorem copyAddress_of_holds {off : UInt32} {bs : Bytes} (hlen : bs.length = 4)
    (hold : rd.Holds (base + off.toNat) bs) :
    copyAddress rd base off = .ok (addressOf bs) := by
  obtain ⟨a, b, c, d, rfl⟩ := List.length_eq_four.mp hlen
  have hone := hold.tail.head
  have htwo := hold.tail.tail.head
  have hthree := hold.tail.tail.tail.head
  simp only [copyAddress, hold.head, hone, htwo, hthree, bind, Except.bind, addressOf]

/-- **One record.** The walk passes a record and inserts what it stands for. -/
theorem answerRecords_record {fuel : ℕ} (hfuel : dnsLen.toNat < fuel) (qname : Bytes) (n : ℕ)
    (r : Record) {off : UInt32} (hold : rd.Holds (base + off.toNat) r.wire)
    (hend : off.toNat + r.wire.length ≤ dnsLen.toNat) :
    ∃ next : UInt32, next.toNat = off.toNat + r.wire.length ∧
      answerRecords rd base dnsLen fuel qname (n + 1) off =
        (answerRecords rd base dnsLen fuel qname n next).map
          ((recordAnswer qname r).toList ++ ·) := by
  have hlt := dnsLen.toNat_lt
  have howner := r.owner.rawName_wire
  have hpos := howner.length_pos
  have hfields : r.fields.length = 10 := rfl
  have hsize : r.wire.length = r.owner.wire.length + (10 + r.rdata.length) := by
    rw [Record.wire, List.length_append, List.length_append, hfields]
  have hrdata := r.rdata_lt
  have hroom : off + 10 ≤ dnsLen := by
    rw [UInt32.le_iff_toNat_le, toNat_add_of_lt (k := 10) rfl (by omega)]
    omega
  obtain ⟨p, hp, hpt⟩ : ∃ p, skipOwner rd base dnsLen fuel off = .ok p ∧
      p.toNat = off.toNat + r.owner.wire.length :=
    skipOwner_of_rawName howner hold.left (by omega) (by omega)
  -- the fields and the data stand behind the owner
  have hrest : rd.Holds (base + p.toNat) (r.fields ++ r.rdata) := hold.right.of_eq (by omega)
  have hfour : (p + 4).toNat = p.toNat + 4 := toNat_add_of_lt rfl (by omega)
  have height : (p + 8).toNat = p.toNat + 8 := toNat_add_of_lt rfl (by omega)
  have hten : (p + 10).toNat = p.toNat + 10 := toNat_add_of_lt rfl (by omega)
  have htype : rd.Holds (base + p.toNat) (word16 r.type) := hrest.left.left.left.left
  have httl : rd.Holds (base + (p + 4).toNat) (word32 r.ttl) := by
    rw [hfour, ← add_assoc]
    exact hrest.left.left.right
  have hlength : rd.Holds (base + (p + 8).toNat) (word16 (UInt16.ofNat r.rdata.length)) := by
    rw [height, ← add_assoc]
    exact hrest.left.right
  have hdata : rd.Holds (base + (p + 10).toNat) r.rdata := hrest.right.of_eq (by omega)
  have hrdlength : (UInt16.ofNat r.rdata.length).toUInt32.toNat = r.rdata.length := by
    rw [UInt16.toNat_toUInt32, UInt16.toNat_ofNat']
    omega
  have hnext : (p + 10 + (UInt16.ofNat r.rdata.length).toUInt32).toNat =
      off.toNat + r.wire.length := by
    rw [toNat_add_of_lt hrdlength (by omega)]
    omega
  have hnot : ¬p + 10 > dnsLen := by
    rw [gt_iff_lt, UInt32.lt_iff_toNat_lt]
    omega
  have hnot' : ¬p + 10 + (UInt16.ofNat r.rdata.length).toUInt32 > dnsLen := by
    rw [gt_iff_lt, UInt32.lt_iff_toNat_lt]
    omega
  have haddress : UInt16.ofNat r.rdata.length = 4 ↔ r.rdata.length = 4 := by
    rw [← UInt16.toNat_inj, UInt16.toNat_ofNat', Nat.mod_eq_of_lt hrdata]
    rfl
  refine ⟨_, hnext, ?_⟩
  rw [answerRecords, if_pos hroom, hp]
  simp only [bind, Except.bind, if_neg hnot]
  rw [field16_of_holds htype (by omega), field32_of_holds httl (by omega),
    field16_of_holds hlength (by omega)]
  simp only [if_neg hnot', haddress]
  by_cases hrecord : r.type = 1 ∧ r.rdata.length = 4
  · rw [if_pos hrecord, copyAddress_of_holds hrecord.2 hdata, recordAnswer, if_pos hrecord]
    cases answerRecords rd base dnsLen fuel qname n
      (p + 10 + (UInt16.ofNat r.rdata.length).toUInt32) <;> rfl
  · rw [if_neg hrecord, recordAnswer, if_neg hrecord]
    cases answerRecords rd base dnsLen fuel qname n
      (p + 10 + (UInt16.ofNat r.rdata.length).toUInt32) <;> rfl

/-- **The walk.** From the first record on the walk inserts what the records stand for. -/
theorem answerRecords_wire {fuel : ℕ} (hfuel : dnsLen.toNat < fuel) (qname : Bytes)
    (rs : List Record) {off : UInt32} (hold : rd.Holds (base + off.toNat) (recordsWire rs))
    (hend : off.toNat + (recordsWire rs).length ≤ dnsLen.toNat) :
    answerRecords rd base dnsLen fuel qname rs.length off =
      .ok (rs.filterMap (recordAnswer qname)) := by
  induction rs generalizing off with
  | nil => rfl
  | cons r rs ih =>
    have hsplit : recordsWire (r :: rs) = r.wire ++ recordsWire rs := List.flatMap_cons
    rw [hsplit, List.length_append] at hend
    rw [hsplit] at hold
    obtain ⟨next, hnext, hrecord⟩ := answerRecords_record hfuel qname rs.length r hold.left
      (by omega)
    rw [List.length_cons, hrecord, ih (hold.right.of_eq (by omega)) (by omega)]
    cases h : recordAnswer qname r with
    | none => rw [List.filterMap_cons_none h]; rfl
    | some a => rw [List.filterMap_cons_some h]; rfl

end Parser

/-- **The answer section.** Records that fill the captured bytes from an offset to their end, as
many as the header says, are walked over, and the addresses of `A` records are inserted in order,
each with the question name and its own lifetime. -/
theorem answerRecords_captured (mem : ℕ → UInt8) (base : ℕ) (dnsLen off : UInt32) (qname : Bytes)
    (rs : List Record) (ancount : UInt16) (hcount : ancount.toNat = rs.length)
    (hbytes : ∀ i (h : i < (recordsWire rs).length),
      mem (base + off.toNat + i) = (recordsWire rs)[i])
    (hend : off.toNat + (recordsWire rs).length = dnsLen.toNat) :
    answerRecords (captureReader (base + dnsLen.toNat) mem) base dnsLen
        (base + dnsLen.toNat + 1) qname ancount.toNat off =
      .ok (rs.filterMap fun r =>
        if r.type = 1 ∧ r.rdata.length = 4 then some ⟨addressOf r.rdata, qname, r.ttl⟩
        else none) := by
  rw [hcount]
  exact answerRecords_wire (by omega) qname rs (captureReader_holds (by omega) hbytes) hend.le

/-- The address 1.2.3.4 of the first question's name. -/
def sampleAddress : Record := ⟨.pointer [] 12, 1, 1, 60, [1, 2, 3, 4], by decide⟩

/-- An alias and two addresses, one of each length, with all kinds of owners. -/
def sampleRecords : List Record :=
  let www : Label := ⟨text "www", by decide, by decide⟩
  let io : Label := ⟨text "io", by decide, by decide⟩
  [⟨.pointer [www] 12, 5, 1, 300, [0xC0, 12], by decide⟩,
    ⟨.name ⟨[io], by decide⟩, 28, 1, 60, List.replicate 16 1, by decide⟩,
    sampleAddress]

theorem answerRecords_captured_sample :
    answerRecords (captureReader 116 fun i => (recordsWire sampleRecords).getD (i - 52) 0) 28 88 117
      (text "abc.io") 3 24 = .ok [⟨0x04030201, text "abc.io", 60⟩] := by
  have hbytes (i : ℕ) (hi : i < (recordsWire sampleRecords).length) :
      (recordsWire sampleRecords).getD (28 + (24 : UInt32).toNat + i - 52) 0 =
        (recordsWire sampleRecords)[i] := by
    have hoff : (24 : UInt32).toNat = 24 := rfl
    rw [hoff, Nat.add_sub_cancel_left, List.getD_eq_getElem _ _ hi]
  exact answerRecords_captured (fun i => (recordsWire sampleRecords).getD (i - 52) 0) 28 88 24
    (text "abc.io") sampleRecords 3 rfl hbytes (by decide +kernel)

end NdpiObserve
