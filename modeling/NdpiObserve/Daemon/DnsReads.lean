import NdpiObserve.Daemon.DnsCache

/-!
# What the DNS parser reads

The parser of `daemon/ndpi_dns_cache.h` is given a packet length and reads at offsets that the
packet controls. On a reader that answers below the packet length it never faults, so it reads
only below that length and ends: no offset wraps, and every loop makes progress.

## Main definitions

* `Reader.Covers`: a reader that answers below a bound.

## Main results

* `exists_dnsParse_eq_ok`: the parser on a reader that covers the packet length.
* `dnsParse_memoryReader`: what the parser finds in captured bytes it finds in the memory.
-/

namespace NdpiObserve

/-- The reader answers at every index below `n`. -/
def Reader.Covers (rd : Reader) (n : ℕ) : Prop := ∀ i < n, ∃ b, rd i = .ok b

theorem captureReader_covers (n : ℕ) (mem : ℕ → UInt8) : (captureReader n mem).Covers n := by
  intro i hi
  exact ⟨mem i, by rw [captureReader, if_pos hi]⟩

section Parser

-- The message starts at `base` and has `dnsLen` bytes, all of which the reader answers; offsets
-- past its end stay far below the width of an offset.
variable {rd : Reader} {base n : ℕ} {dnsLen : UInt32}

theorem exists_dnsAt (hrd : rd.Covers n) (hn : base + dnsLen.toNat ≤ n) (off : UInt32)
    (hoff : off.toNat < dnsLen.toNat) : ∃ b, dnsAt rd base off = .ok b :=
  hrd _ (by omega)

theorem exists_copyLabel (hrd : rd.Covers n) (hn : base + dnsLen.toNat ≤ n) (k : ℕ) (off : UInt32)
    (qname : Bytes) : ∃ r, copyLabel rd base dnsLen k off qname = .ok r ∧
      off.toNat ≤ r.1.toNat ∧ r.1.toNat ≤ max off.toNat dnsLen.toNat := by
  induction k generalizing off qname with
  | zero => exact ⟨(off, qname), rfl, le_refl _, le_max_left _ _⟩
  | succ k ih =>
    rw [copyLabel]
    split
    case isTrue h =>
      have hoff : off.toNat < dnsLen.toNat := UInt32.lt_iff_toNat_lt.mp h.1
      obtain ⟨b, hb⟩ := exists_dnsAt hrd hn _ hoff
      obtain ⟨r, hr, hle, hmax⟩ := ih (off + 1) (qname ++ [b])
      have hsucc : (off + 1).toNat = off.toNat + 1 := by
        have hlt := dnsLen.toNat_lt
        rw [UInt32.toNat_add, UInt32.toNat_one]
        omega
      refine ⟨r, ?_, by omega, by omega⟩
      rw [hb]
      exact hr
    case isFalse => exact ⟨(off, qname), rfl, le_refl _, le_max_left _ _⟩

/-- Offsets near the message do not wrap. -/
theorem toNat_add_small (hsmall : dnsLen.toNat + 210 ≤ 2 ^ 32) {off x : UInt32} {k : ℕ}
    (hx : x.toNat = k) (hoff : off.toNat + k < dnsLen.toNat + 210) :
    (off + x).toNat = off.toNat + k := by
  rw [UInt32.toNat_add, hx]
  omega

theorem exists_questionName (hrd : rd.Covers n) (hn : base + dnsLen.toNat ≤ n)
    (hsmall : dnsLen.toNat + 210 ≤ 2 ^ 32) (fuel : ℕ) (off : UInt32) (qname : Bytes)
    (hpos : 0 < fuel) (hfuel : dnsLen.toNat < off.toNat + fuel) :
    ∃ r, questionName rd base dnsLen fuel off qname = .ok r ∧
      r.1.toNat ≤ max off.toNat (dnsLen.toNat + 1) := by
  induction fuel generalizing off qname with
  | zero => omega
  | succ fuel ih =>
    rw [questionName]
    split
    case isFalse => exact ⟨(off, qname), rfl, le_max_left _ _⟩
    case isTrue h =>
      have hoff : off.toNat < dnsLen.toNat := UInt32.lt_iff_toNat_lt.mp h
      obtain ⟨llen, hllen⟩ := exists_dnsAt hrd hn _ hoff
      have hone : (off + 1).toNat = off.toNat + 1 :=
        toNat_add_small hsmall rfl (by omega)
      have htwo : (off + 1 + 1).toNat = off.toNat + 2 := by
        rw [toNat_add_small (k := 1) hsmall rfl (by omega), hone]
      simp only [hllen, bind, Except.bind]
      split_ifs
      · exact ⟨_, rfl, by dsimp only; omega⟩
      · exact ⟨_, rfl, by dsimp only; omega⟩
      · -- a label: its copy advances, and so does the loop
        obtain ⟨r, hr, hle, hmax⟩ :=
          exists_copyLabel hrd hn llen.toNat (off + 1) (qname ++ text ".")
        obtain ⟨s, hs, hbound⟩ := ih r.1 r.2 (by omega) (by omega)
        rw [hr]
        exact ⟨s, hs, by omega⟩
      · obtain ⟨r, hr, hle, hmax⟩ := exists_copyLabel hrd hn llen.toNat (off + 1) qname
        obtain ⟨s, hs, hbound⟩ := ih r.1 r.2 (by omega) (by omega)
        rw [hr]
        exact ⟨s, hs, by omega⟩

/-- A length that is no pointer. -/
theorem toNat_lt_of_not_isPointer {llen : UInt8} (h : ¬isPointer llen) : llen.toNat < 192 := by
  by_contra hlong
  refine h ?_
  revert hlong
  revert llen
  decide +kernel

theorem exists_skipName (hrd : rd.Covers n) (hn : base + dnsLen.toNat ≤ n)
    (hsmall : dnsLen.toNat + 210 ≤ 2 ^ 32) (fuel : ℕ) (off : UInt32)
    (hpos : 0 < fuel) (hfuel : dnsLen.toNat < off.toNat + fuel) :
    ∃ r, skipName rd base dnsLen fuel off = .ok r ∧
      r.toNat ≤ max off.toNat (dnsLen.toNat + 191) := by
  induction fuel generalizing off with
  | zero => omega
  | succ fuel ih =>
    rw [skipName]
    split
    case isFalse => exact ⟨off, rfl, le_max_left _ _⟩
    case isTrue h =>
      have hoff : off.toNat < dnsLen.toNat := UInt32.lt_iff_toNat_lt.mp h
      obtain ⟨llen, hllen⟩ := exists_dnsAt hrd hn _ hoff
      have hone : (off + 1).toNat = off.toNat + 1 :=
        toNat_add_small hsmall rfl (by omega)
      have htwo : (off + 2).toNat = off.toNat + 2 :=
        toNat_add_small hsmall rfl (by omega)
      have hlabel : (1 + llen.toUInt32).toNat = 1 + llen.toNat := by
        have hlt := llen.toNat_lt
        rw [UInt32.toNat_add, UInt8.toNat_toUInt32, UInt32.toNat_one]
        omega
      simp only [hllen, bind, Except.bind]
      split_ifs with hzero hpointer
      · exact ⟨_, rfl, by omega⟩
      · exact ⟨_, rfl, by omega⟩
      · have hlt := toNat_lt_of_not_isPointer hpointer
        have hnext : (off + (1 + llen.toUInt32)).toNat = off.toNat + (1 + llen.toNat) :=
          toNat_add_small hsmall hlabel (by omega)
        obtain ⟨r, hr, hbound⟩ := ih (off + (1 + llen.toUInt32)) (by omega) (by omega)
        exact ⟨r, hr, by omega⟩

theorem exists_skipQuestions (hrd : rd.Covers n) (hn : base + dnsLen.toNat ≤ n)
    (hsmall : dnsLen.toNat + 210 ≤ 2 ^ 32) {fuel : ℕ} (hfuel : dnsLen.toNat < fuel) (k : ℕ)
    (off : UInt32) : ∃ r, skipQuestions rd base dnsLen fuel k off = .ok r ∧
      r.toNat ≤ max off.toNat (dnsLen.toNat + 195) := by
  induction k generalizing off with
  | zero => exact ⟨off, rfl, le_max_left _ _⟩
  | succ k ih =>
    rw [skipQuestions]
    split
    case isFalse => exact ⟨off, rfl, le_max_left _ _⟩
    case isTrue h =>
      have hoff : off.toNat < dnsLen.toNat := UInt32.lt_iff_toNat_lt.mp h
      obtain ⟨r, hr, hmax⟩ := exists_skipName hrd hn hsmall fuel off (by omega) (by omega)
      have hfour : (r + 4).toNat = r.toNat + 4 :=
        toNat_add_small hsmall rfl (by omega)
      obtain ⟨s, hs, hbound⟩ := ih (r + 4)
      simp only [hr, bind, Except.bind]
      exact ⟨s, hs, by omega⟩

theorem exists_skipOwner (hrd : rd.Covers n) (hn : base + dnsLen.toNat ≤ n)
    (hsmall : dnsLen.toNat + 210 ≤ 2 ^ 32) {fuel : ℕ} (hfuel : dnsLen.toNat < fuel)
    (off : UInt32) (hoff : off.toNat ≤ dnsLen.toNat) :
    ∃ r, skipOwner rd base dnsLen fuel off = .ok r ∧ r.toNat ≤ dnsLen.toNat + 191 := by
  have hname := exists_skipName hrd hn hsmall fuel off (by omega) (by omega)
  have hbound : max off.toNat (dnsLen.toNat + 191) = dnsLen.toNat + 191 := by omega
  rw [hbound] at hname
  rw [skipOwner]
  split
  case isFalse => exact hname
  case isTrue h =>
    obtain ⟨b, hb⟩ := exists_dnsAt hrd hn _ (UInt32.lt_iff_toNat_lt.mp h)
    have htwo : (off + 2).toNat = off.toNat + 2 :=
      toNat_add_small hsmall rfl (by omega)
    simp only [hb, bind, Except.bind]
    split
    · exact ⟨_, rfl, by omega⟩
    · exact hname

theorem exists_field16 (hrd : rd.Covers n) (hn : base + dnsLen.toNat ≤ n)
    (hsmall : dnsLen.toNat + 210 ≤ 2 ^ 32) (off : UInt32)
    (hoff : off.toNat + 2 ≤ dnsLen.toNat) : ∃ x, field16 rd base off = .ok x := by
  have h₁ : (off + 1).toNat = off.toNat + 1 := toNat_add_small hsmall rfl (by omega)
  obtain ⟨a, ha⟩ := exists_dnsAt hrd hn off (by omega)
  obtain ⟨b, hb⟩ := exists_dnsAt hrd hn (off + 1) (by omega)
  simp only [field16, ha, hb, bind, Except.bind]
  exact ⟨_, rfl⟩

theorem exists_field32 (hrd : rd.Covers n) (hn : base + dnsLen.toNat ≤ n)
    (hsmall : dnsLen.toNat + 210 ≤ 2 ^ 32) (off : UInt32)
    (hoff : off.toNat + 4 ≤ dnsLen.toNat) : ∃ x, field32 rd base off = .ok x := by
  have h₁ : (off + 1).toNat = off.toNat + 1 := toNat_add_small hsmall rfl (by omega)
  have h₂ : (off + 2).toNat = off.toNat + 2 := toNat_add_small hsmall rfl (by omega)
  have h₃ : (off + 3).toNat = off.toNat + 3 := toNat_add_small hsmall rfl (by omega)
  obtain ⟨a, ha⟩ := exists_dnsAt hrd hn off (by omega)
  obtain ⟨b, hb⟩ := exists_dnsAt hrd hn (off + 1) (by omega)
  obtain ⟨c, hc⟩ := exists_dnsAt hrd hn (off + 2) (by omega)
  obtain ⟨d, hd⟩ := exists_dnsAt hrd hn (off + 3) (by omega)
  simp only [field32, ha, hb, hc, hd, bind, Except.bind]
  exact ⟨_, rfl⟩

theorem exists_copyAddress (hrd : rd.Covers n) (hn : base + dnsLen.toNat ≤ n) (off : UInt32)
    (hoff : off.toNat + 4 ≤ dnsLen.toNat) : ∃ x, copyAddress rd base off = .ok x := by
  obtain ⟨a, ha⟩ := hrd (base + off.toNat) (by omega)
  obtain ⟨b, hb⟩ := hrd (base + off.toNat + 1) (by omega)
  obtain ⟨c, hc⟩ := hrd (base + off.toNat + 2) (by omega)
  obtain ⟨d, hd⟩ := hrd (base + off.toNat + 3) (by omega)
  simp only [copyAddress, ha, hb, hc, hd, bind, Except.bind]
  exact ⟨_, rfl⟩

theorem exists_answerRecords (hrd : rd.Covers n) (hn : base + dnsLen.toNat ≤ n)
    (hsmall : dnsLen.toNat + 210 ≤ 2 ^ 32) {fuel : ℕ} (hfuel : dnsLen.toNat < fuel)
    (qname : Bytes) (k : ℕ) (off : UInt32) (hoff : off.toNat < dnsLen.toNat + 200) :
    ∃ l, answerRecords rd base dnsLen fuel qname k off = .ok l := by
  induction k generalizing off with
  | zero => exact ⟨[], rfl⟩
  | succ k ih =>
    rw [answerRecords]
    split
    case isFalse => exact ⟨[], rfl⟩
    case isTrue h =>
      have hten : (off + 10).toNat = off.toNat + 10 := toNat_add_small hsmall rfl (by omega)
      have hle := UInt32.le_iff_toNat_le.mp h
      obtain ⟨r, hr, hbound⟩ := exists_skipOwner hrd hn hsmall hfuel off (by omega)
      simp only [hr, bind, Except.bind]
      split
      case isTrue => exact ⟨[], rfl⟩
      case isFalse hrecord =>
        have hfits : (r + 10).toNat ≤ dnsLen.toNat := by
          rwa [gt_iff_lt, UInt32.lt_iff_toNat_lt, not_lt] at hrecord
        have hten' : (r + 10).toNat = r.toNat + 10 :=
          toNat_add_small hsmall rfl (by omega)
        have hfour : (r + 4).toNat = r.toNat + 4 :=
          toNat_add_small hsmall rfl (by omega)
        have height : (r + 8).toNat = r.toNat + 8 :=
          toNat_add_small hsmall rfl (by omega)
        obtain ⟨rtype, htype⟩ := exists_field16 hrd hn hsmall r (by omega)
        obtain ⟨ttl, httl⟩ := exists_field32 hrd hn hsmall (r + 4) (by omega)
        obtain ⟨rdlength, hlength⟩ := exists_field16 hrd hn hsmall (r + 8) (by omega)
        simp only [htype, httl, hlength]
        split
        case isTrue => exact ⟨[], rfl⟩
        case isFalse hdata =>
          -- the sum may wrap, but then too it is an offset in the message
          rw [gt_iff_lt, UInt32.lt_iff_toNat_lt, not_lt] at hdata
          obtain ⟨rest, hrest⟩ := ih (r + 10 + rdlength.toUInt32) (by omega)
          split
          case isFalse => exact ⟨rest, hrest⟩
          case isTrue haddress =>
            have hend : (r + 10 + rdlength.toUInt32).toNat = r.toNat + 14 := by
              rw [haddress.2]
              exact (toNat_add_small (k := 4) hsmall rfl (by omega)).trans (by omega)
            obtain ⟨ip, hip⟩ := exists_copyAddress hrd hn (r + 10) (by omega)
            simp only [hip, hrest]
            exact ⟨_, rfl⟩

theorem exists_dnsParseMessage (hrd : rd.Covers n) (hn : base + dnsLen.toNat ≤ n)
    (hsmall : dnsLen.toNat + 210 ≤ 2 ^ 32) {fuel : ℕ} (hfuel : dnsLen.toNat < fuel)
    (hheader : 12 ≤ dnsLen.toNat) : ∃ l, dnsParseMessage rd base dnsLen fuel = .ok l := by
  have htwo : (2 : UInt32).toNat = 2 := rfl
  have hfour : (4 : UInt32).toNat = 4 := rfl
  have hsix : (6 : UInt32).toNat = 6 := rfl
  have htwelve : (12 : UInt32).toNat = 12 := rfl
  obtain ⟨flags, hflags⟩ := exists_field16 hrd hn hsmall 2 (by omega)
  obtain ⟨qdcount, hqd⟩ := exists_field16 hrd hn hsmall 4 (by omega)
  obtain ⟨ancount, han⟩ := exists_field16 hrd hn hsmall 6 (by omega)
  simp only [dnsParseMessage, hflags, hqd, han, bind, Except.bind]
  split
  case isTrue => exact ⟨[], rfl⟩
  case isFalse =>
    obtain ⟨r, hr, hbound⟩ := exists_questionName hrd hn hsmall fuel 12 [] (by omega) (by omega)
    simp only [hr]
    split
    case isTrue => exact ⟨[], rfl⟩
    case isFalse =>
      obtain ⟨s, hs, hskip⟩ :=
        exists_skipQuestions hrd hn hsmall hfuel (qdcount.toNat - 1) r.1
      simp only [hs]
      have hnext : (s + 4).toNat = s.toNat + 4 :=
        toNat_add_small hsmall rfl (by omega)
      exact exists_answerRecords hrd hn hsmall hfuel _ _ _ (by omega)

end Parser

/-- The length of the message, for a packet with room for the headers. -/
theorem toNat_dnsLen {pktLen : UInt32} {ihl : UInt8} (h : ¬pktLen < ihl.toUInt32 + 8 + 12) :
    ihl.toNat + 20 ≤ pktLen.toNat ∧
      (pktLen - ihl.toUInt32 - 8).toNat = pktLen.toNat - ihl.toNat - 8 := by
  have hlt := ihl.toNat_lt
  have hihl : ihl.toUInt32.toNat = ihl.toNat := UInt8.toNat_toUInt32 ihl
  have hsum : (ihl.toUInt32 + 8 + 12).toNat = ihl.toNat + 20 := by
    simp only [UInt32.toNat_add, hihl, UInt32.reduceToNat]
    omega
  rw [UInt32.lt_iff_toNat_lt, not_lt, hsum] at h
  refine ⟨h, ?_⟩
  rw [UInt32.toNat_sub_of_le, UInt32.toNat_sub_of_le, hihl]
  · rfl
  · rw [UInt32.le_iff_toNat_le]
    omega
  · have height : (8 : UInt32).toNat = 8 := rfl
    rw [UInt32.le_iff_toNat_le, UInt32.toNat_sub_of_le, hihl]
    · omega
    · rw [UInt32.le_iff_toNat_le]
      omega

/-- **The parser stays inside the packet length.** On a reader that answers below the packet
length, and at nothing else, the parser ends without a fault, unless the length is so close to
`2 ^ 32` that an offset past the end of the message can wrap. -/
theorem exists_dnsParse_eq_ok {rd : Reader} {pktLen : UInt32} (hrd : rd.Covers pktLen.toNat)
    (hsmall : pktLen.toNat + 182 ≤ 2 ^ 32) : ∃ l, dnsParse rd pktLen = .ok l := by
  rw [dnsParse]
  split
  case isTrue => exact ⟨[], rfl⟩
  case isFalse hlong =>
    have hforty : (40 : UInt32).toNat = 40 := rfl
    rw [UInt32.lt_iff_toNat_lt, not_lt] at hlong
    obtain ⟨b, hb⟩ := hrd 0 (by omega)
    simp only [hb, bind, Except.bind]
    generalize (b &&& 0xf) * 4 = ihl
    split
    case isTrue => exact ⟨[], rfl⟩
    case isFalse hheader =>
      obtain ⟨hmin, hheader⟩ := not_or.mp hheader
      have htwenty : (20 : UInt8).toNat = 20 := rfl
      rw [UInt8.lt_iff_toNat_lt, not_lt] at hmin
      obtain ⟨hroom, hdns⟩ := toNat_dnsLen hheader
      exact exists_dnsParseMessage hrd (by omega) (by omega) (by omega) (by omega)

/-! ### Captured bytes and memory -/

/-- Whenever the first computation has a result, the second has the same. -/
def Agrees {α : Type} (x y : Except ReadFault α) : Prop := ∀ r, x = .ok r → y = .ok r

namespace Agrees

variable {α β : Type}

theorem refl (x : Except ReadFault α) : Agrees x x := fun _ h => h

theorem bind {x y : Except ReadFault α} {f g : α → Except ReadFault β} (h : Agrees x y)
    (hfg : ∀ a, Agrees (f a) (g a)) : Agrees (x >>= f) (y >>= g) := by
  intro r hr
  cases x with
  | error e => cases hr
  | ok a =>
    rw [h a rfl]
    exact hfg a r hr

theorem ite {p : Prop} [Decidable p] {x x' y y' : Except ReadFault α} (h : Agrees x x')
    (h' : Agrees y y') : Agrees (if p then x else y) (if p then x' else y') := by
  split
  · exact h
  · exact h'

end Agrees

section Agree

variable {rd rd' : Reader} (h : ∀ i, Agrees (rd i) (rd' i)) (base : ℕ) (dnsLen : UInt32)

include h

theorem copyLabel_agrees (k : ℕ) (off : UInt32) (qname : Bytes) :
    Agrees (copyLabel rd base dnsLen k off qname) (copyLabel rd' base dnsLen k off qname) := by
  induction k generalizing off qname with
  | zero => exact .refl _
  | succ k ih => exact .ite ((h _).bind fun b => ih _ _) (.refl _)

theorem questionName_agrees (fuel : ℕ) (off : UInt32) (qname : Bytes) :
    Agrees (questionName rd base dnsLen fuel off qname)
      (questionName rd' base dnsLen fuel off qname) := by
  induction fuel generalizing off qname with
  | zero => exact .refl _
  | succ fuel ih =>
    refine .ite ((h _).bind fun llen => .ite (.refl _) (.ite (.refl _) ?_)) (.refl _)
    exact (copyLabel_agrees h base dnsLen _ _ _).bind fun r => ih _ _

theorem skipName_agrees (fuel : ℕ) (off : UInt32) :
    Agrees (skipName rd base dnsLen fuel off) (skipName rd' base dnsLen fuel off) := by
  induction fuel generalizing off with
  | zero => exact .refl _
  | succ fuel ih =>
    exact .ite ((h _).bind fun llen => .ite (.refl _) (.ite (.refl _) (ih _))) (.refl _)

theorem skipQuestions_agrees (fuel k : ℕ) (off : UInt32) :
    Agrees (skipQuestions rd base dnsLen fuel k off)
      (skipQuestions rd' base dnsLen fuel k off) := by
  induction k generalizing off with
  | zero => exact .refl _
  | succ k ih => exact .ite ((skipName_agrees h base dnsLen _ _).bind fun r => ih _) (.refl _)

theorem skipOwner_agrees (fuel : ℕ) (off : UInt32) :
    Agrees (skipOwner rd base dnsLen fuel off) (skipOwner rd' base dnsLen fuel off) :=
  .ite ((h _).bind fun _ => .ite (.refl _) (skipName_agrees h base dnsLen _ _))
    (skipName_agrees h base dnsLen _ _)

omit dnsLen in
theorem field16_agrees (off : UInt32) : Agrees (field16 rd base off) (field16 rd' base off) :=
  (h _).bind fun _ => (h _).bind fun _ => .refl _

omit dnsLen in
theorem field32_agrees (off : UInt32) : Agrees (field32 rd base off) (field32 rd' base off) :=
  (h _).bind fun _ => (h _).bind fun _ => (h _).bind fun _ => (h _).bind fun _ => .refl _

omit dnsLen in
theorem copyAddress_agrees (off : UInt32) :
    Agrees (copyAddress rd base off) (copyAddress rd' base off) :=
  (h _).bind fun _ => (h _).bind fun _ => (h _).bind fun _ => (h _).bind fun _ => .refl _

theorem answerRecords_agrees (fuel : ℕ) (qname : Bytes) (k : ℕ) (off : UInt32) :
    Agrees (answerRecords rd base dnsLen fuel qname k off)
      (answerRecords rd' base dnsLen fuel qname k off) := by
  induction k generalizing off with
  | zero => exact .refl _
  | succ k ih =>
    refine .ite ((skipOwner_agrees h base dnsLen _ _).bind fun r => .ite (.refl _) ?_) (.refl _)
    refine (field16_agrees h base _).bind fun rtype => (field32_agrees h base _).bind fun ttl =>
      (field16_agrees h base _).bind fun rdlength => .ite (.refl _) (.ite ?_ (ih _))
    exact (copyAddress_agrees h base _).bind fun ip => (ih _).bind fun rest => .refl _

theorem dnsParseMessage_agrees (fuel : ℕ) :
    Agrees (dnsParseMessage rd base dnsLen fuel) (dnsParseMessage rd' base dnsLen fuel) := by
  refine (field16_agrees h base _).bind fun flags => (field16_agrees h base _).bind fun qdcount =>
    (field16_agrees h base _).bind fun ancount => .ite (.refl _) ?_
  refine (questionName_agrees h base dnsLen _ _ _).bind fun r => .ite (.refl _) ?_
  exact (skipQuestions_agrees h base dnsLen _ _ _).bind fun off =>
    answerRecords_agrees h base dnsLen _ _ _ _

omit base dnsLen in
theorem dnsParse_agrees (pktLen : UInt32) : Agrees (dnsParse rd pktLen) (dnsParse rd' pktLen) := by
  refine .ite (.refl _) ((h _).bind fun b => .ite (.refl _) ?_)
  exact dnsParseMessage_agrees h _ _ _

end Agree

/-- What the parser finds in the captured bytes alone is what it finds in the memory. -/
theorem dnsParse_memoryReader {k : ℕ} {mem : ℕ → UInt8} {pktLen : UInt32} {l : List DnsAnswer}
    (h : dnsParse (captureReader k mem) pktLen = .ok l) :
    dnsParse (memoryReader mem) pktLen = .ok l := by
  refine dnsParse_agrees (fun i b hb => ?_) pktLen l h
  rw [captureReader] at hb
  split at hb
  · exact hb
  · cases hb

end NdpiObserve
