import NdpiObserve.Daemon.DnsReads
import NdpiObserve.Library.TwoRuns

/-!
# The DNS parser on a truncated capture

The kernel program captures only the first bytes of most packets. The parser on a truncated capture
makes the same steps as on the full packet up to the first offset that lies behind the truncated
message. From there on it moves the offset no further back, and so it finds no answer record any
more. What it inserts is the start of what it inserts for the full packet.

## Main definitions

* `CutOff`: an offset behind the truncated message, but inside the full one.

## Main results

* `answerRecords_rel`: the records of the two messages.
* `dnsParse_prefix`: the insertions for the two captures.
-/

namespace NdpiObserve

open TwoRuns

/-- An offset that is inside a message of `full` bytes, but not inside one of `cut` bytes. -/
def CutOff (cut full off : UInt32) : Prop := cut.toNat ≤ off.toNat ∧ off.toNat < full.toNat

theorem CutOff.of_lt {cut full off : UInt32} (h : ¬off < cut) (h' : off < full) :
    CutOff cut full off := by
  rw [UInt32.lt_iff_toNat_lt, not_lt] at h
  exact ⟨h, UInt32.lt_iff_toNat_lt.mp h'⟩

/-- A run without insertions has the start of any other. -/
theorem nil_rel {y : Except ReadFault (List DnsAnswer)} :
    Rel (· <+: ·) (.ok [] : Except ReadFault (List DnsAnswer)) y := by
  refine .of_left fun l hl l' => ?_
  obtain rfl := Except.ok.inj hl
  exact List.nil_prefix

section Parser

-- A message at `base` and a longer one there; both have room for a header before the width of an
-- offset ends. Where both readers have a byte, it is the same.
variable {rd rd' : Reader} (hread : ∀ i, Rel Eq (rd i) (rd' i)) {base : ℕ} {cut full : UInt32}
  (hle : cut ≤ full) (hsmall : full.toNat + 28 < 2 ^ 32)

/-! ### Behind the message -/

theorem questionName_of_le {fuel : ℕ} {off : UInt32} {qname : Bytes} {r : UInt32 × Bytes}
    (h : cut.toNat ≤ off.toNat) (hr : questionName rd base cut fuel off qname = .ok r) :
    r = (off, qname) := by
  cases fuel with
  | zero => cases hr
  | succ fuel =>
    rw [questionName, if_neg (UInt32.not_lt.mpr (UInt32.le_iff_toNat_le.mpr h))] at hr
    exact (Except.ok.inj hr).symm

theorem skipQuestions_of_le {fuel k : ℕ} {off r : UInt32} (h : cut.toNat ≤ off.toNat)
    (hr : skipQuestions rd base cut fuel k off = .ok r) : r = off := by
  cases k with
  | zero => exact (Except.ok.inj hr).symm
  | succ k =>
    rw [skipQuestions, if_neg (UInt32.not_lt.mpr (UInt32.le_iff_toNat_le.mpr h))] at hr
    exact (Except.ok.inj hr).symm

theorem answerRecords_of_le {fuel k : ℕ} {off : UInt32} {qname : Bytes} {l : List DnsAnswer}
    (h : cut.toNat < (off + 10).toNat)
    (hl : answerRecords rd base cut fuel qname k off = .ok l) : l = [] := by
  cases k with
  | zero => exact (Except.ok.inj hl).symm
  | succ k =>
    rw [answerRecords, if_neg (UInt32.not_le.mpr (UInt32.lt_iff_toNat_lt.mpr h))] at hl
    exact (Except.ok.inj hl).symm

/-! ### Step by step -/

include hread hle

theorem copyLabel_rel (k : ℕ) (off : UInt32) (qname : Bytes) :
    Rel (fun r r' => r = r' ∨ CutOff cut full r.1) (copyLabel rd base cut k off qname)
      (copyLabel rd' base full k off qname) := by
  have hcut := UInt32.le_iff_toNat_le.mp hle
  induction k generalizing off qname with
  | zero => exact .ok (.inl rfl)
  | succ k ih =>
    refine .ite_of_imp (fun h => ⟨UInt32.lt_of_lt_of_le h.1 hle, h.2⟩) (fun _ => ?_)
      (fun _ => .ok (.inl rfl)) (fun h h' => ?_)
    · refine (hread _).bind fun b b' hb => ?_
      rw [hb]
      exact ih _ _
    · -- the label ends with the truncated message
      refine .of_left fun r hr r' => .inr ?_
      obtain rfl := Except.ok.inj hr
      exact .of_lt (fun hlt => h ⟨hlt, h'.2⟩) h'.1

theorem questionName_rel (fuel fuel' : ℕ) (off : UInt32) (qname : Bytes) :
    Rel (fun r r' => r = r' ∨ CutOff cut full r.1) (questionName rd base cut fuel off qname)
      (questionName rd' base full fuel' off qname) := by
  induction fuel generalizing fuel' off qname with
  | zero => exact .error_left _ _
  | succ fuel ih =>
    cases fuel' with
    | zero => exact .error_right _ _
    | succ fuel' =>
      refine .ite_of_imp (fun h => UInt32.lt_of_lt_of_le h hle) (fun _ => ?_)
        (fun _ => .ok (.inl rfl)) (fun h h' => ?_)
      · refine (hread _).bind fun llen llen' hllen => ?_
        rw [hllen]
        refine .ite (fun _ => .ok (.inl rfl)) fun _ => .ite (fun _ => .ok (.inl rfl)) fun _ => ?_
        refine (copyLabel_rel hread hle _ _ _).bind fun r r' hr => ?_
        rcases hr with rfl | hr
        · exact ih _ _ _
        · refine .of_left fun s hs s' => .inr ?_
          rw [questionName_of_le hr.1 hs]
          exact hr
      · refine .of_left fun r hr r' => .inr ?_
        obtain rfl := Except.ok.inj hr
        exact .of_lt h h'

theorem skipName_rel (fuel fuel' : ℕ) (off : UInt32) :
    Rel (fun r r' => r = r' ∨ CutOff cut full r) (skipName rd base cut fuel off)
      (skipName rd' base full fuel' off) := by
  induction fuel generalizing fuel' off with
  | zero => exact .error_left _ _
  | succ fuel ih =>
    cases fuel' with
    | zero => exact .error_right _ _
    | succ fuel' =>
      refine .ite_of_imp (fun h => UInt32.lt_of_lt_of_le h hle) (fun _ => ?_)
        (fun _ => .ok (.inl rfl)) (fun h h' => ?_)
      · refine (hread _).bind fun llen llen' hllen => ?_
        rw [hllen]
        exact .ite (fun _ => .ok (.inl rfl)) fun _ => .ite (fun _ => .ok (.inl rfl)) fun _ => ih _ _
      · refine .of_left fun r hr r' => .inr ?_
        obtain rfl := Except.ok.inj hr
        exact .of_lt h h'

include hsmall

/-- The offset after the questions, when it differs, is at most one question type behind an offset
that is cut off. -/
theorem skipQuestions_rel (fuel fuel' k : ℕ) (off : UInt32) :
    Rel (fun r r' => r = r' ∨ cut.toNat ≤ r.toNat ∧ r.toNat < full.toNat + 4)
      (skipQuestions rd base cut fuel k off) (skipQuestions rd' base full fuel' k off) := by
  have hquestion : (4 : UInt32).toNat = 4 := rfl
  induction k generalizing off with
  | zero => exact .ok (.inl rfl)
  | succ k ih =>
    refine .ite_of_imp (fun h => UInt32.lt_of_lt_of_le h hle) (fun _ => ?_)
      (fun _ => .ok (.inl rfl)) (fun h h' => ?_)
    · refine (skipName_rel hread hle _ _ _).bind fun r r' hr => ?_
      rcases hr with rfl | ⟨hcut, hfull⟩
      · exact ih _
      · have hfour : (r + 4).toNat = r.toNat + 4 := by
          rw [UInt32.toNat_add, hquestion]
          omega
        refine .of_left fun s hs s' => .inr ?_
        rw [skipQuestions_of_le (by omega) hs]
        omega
    · refine .of_left fun r hr r' => .inr ?_
      obtain rfl := Except.ok.inj hr
      obtain ⟨hcut, hfull⟩ := CutOff.of_lt h h'
      omega

/-- In front of a record with room for its fields the first byte of the owner is not cut off. -/
theorem skipOwner_rel (fuel fuel' : ℕ) {off : UInt32} (hroom : off + 10 ≤ cut) :
    Rel (fun r r' => r = r' ∨ CutOff cut full r) (skipOwner rd base cut fuel off)
      (skipOwner rd' base full fuel' off) := by
  refine .ite_of_imp (fun h => UInt32.lt_of_lt_of_le h hle) (fun _ => ?_)
    (fun _ => skipName_rel hread hle _ _ _) (fun h h' => ?_)
  · refine (hread _).bind fun b b' hb => ?_
    rw [hb]
    exact .ite (fun _ => .ok (.inl rfl)) fun _ => skipName_rel hread hle _ _ _
  · obtain ⟨hcut, hfull⟩ := CutOff.of_lt h h'
    have hrecord : (10 : UInt32).toNat = 10 := rfl
    rw [UInt32.le_iff_toNat_le, UInt32.toNat_add, hrecord] at hroom
    omega

omit hle hsmall in
theorem field16_rel (off : UInt32) : Rel Eq (field16 rd base off) (field16 rd' base off) := by
  refine (hread _).bind fun a a' ha => (hread _).bind fun b b' hb => ?_
  rw [ha, hb]
  exact .ok rfl

omit hle hsmall in
theorem field32_rel (off : UInt32) : Rel Eq (field32 rd base off) (field32 rd' base off) := by
  refine (hread _).bind fun a a' ha => (hread _).bind fun b b' hb => (hread _).bind fun c c' hc =>
    (hread _).bind fun d d' hd => ?_
  rw [ha, hb, hc, hd]
  exact .ok rfl

omit hle hsmall in
theorem copyAddress_rel (off : UInt32) :
    Rel Eq (copyAddress rd base off) (copyAddress rd' base off) := by
  refine (hread _).bind fun a a' ha => (hread _).bind fun b b' hb => (hread _).bind fun c c' hc =>
    (hread _).bind fun d d' hd => ?_
  rw [ha, hb, hc, hd]
  exact .ok rfl

/-- **The records of a truncated message.** From the same offset on the truncated message has the
first records of the full one. -/
theorem answerRecords_rel (fuel fuel' : ℕ) (qname : Bytes) (k : ℕ) (off : UInt32) :
    Rel (· <+: ·) (answerRecords rd base cut fuel qname k off)
      (answerRecords rd' base full fuel' qname k off) := by
  have hrecord : (10 : UInt32).toNat = 10 := rfl
  induction k generalizing off with
  | zero => exact nil_rel
  | succ k ih =>
    refine .ite_of_imp (fun h => UInt32.le_trans h hle) (fun hroom => ?_) (fun _ => nil_rel)
      (fun _ _ => nil_rel)
    refine (skipOwner_rel hread hle hsmall _ _ hroom).bind fun r r' hr => ?_
    rcases hr with rfl | ⟨hcut, hfull⟩
    · refine .ite_of_imp' (fun h => UInt32.lt_of_le_of_lt hle h) (fun _ => nil_rel) (fun _ => ?_)
        (fun _ _ => nil_rel)
      refine (field16_rel hread _).bind fun rtype rtype' htype =>
        (field32_rel hread _).bind fun ttl ttl' httl =>
          (field16_rel hread _).bind fun rdlength rdlength' hlength => ?_
      rw [htype, httl, hlength]
      refine .ite_of_imp' (fun h => UInt32.lt_of_le_of_lt hle h) (fun _ => nil_rel) (fun _ => ?_)
        (fun _ _ => nil_rel)
      refine .ite (fun _ => ?_) (fun _ => ih _)
      refine (copyAddress_rel hread _).bind fun ip ip' hip => (ih _).bind fun l l' hl => ?_
      rw [hip]
      exact .ok (List.cons_prefix_cons.mpr ⟨rfl, hl⟩)
    · -- the owner of the record is cut off
      have hgt : r + 10 > cut := by
        rw [gt_iff_lt, UInt32.lt_iff_toNat_lt, UInt32.toNat_add, hrecord]
        omega
      refine .of_left fun l hl l' => ?_
      rw [if_pos hgt] at hl
      obtain rfl := Except.ok.inj hl
      exact List.nil_prefix

theorem dnsParseMessage_rel (fuel fuel' : ℕ) :
    Rel (· <+: ·) (dnsParseMessage rd base cut fuel) (dnsParseMessage rd' base full fuel') := by
  have hbehind {s : UInt32} {qname : Bytes} {k : ℕ} {l : List DnsAnswer}
      (hcut : cut.toNat ≤ s.toNat) (hfull : s.toNat < full.toNat + 4)
      (hl : answerRecords rd base cut fuel qname k (s + 4) = .ok l) : l = [] := by
    have hend : (s + 4 + 10).toNat = s.toNat + 14 := by
      have hfour : (4 : UInt32).toNat = 4 := rfl
      have hrecord : (10 : UInt32).toNat = 10 := rfl
      rw [UInt32.toNat_add, UInt32.toNat_add, hfour, hrecord]
      omega
    exact answerRecords_of_le (by omega) hl
  refine (field16_rel hread _).bind fun flags flags' hflags =>
    (field16_rel hread _).bind fun qdcount qdcount' hqd =>
      (field16_rel hread _).bind fun ancount ancount' han => ?_
  rw [hflags, hqd, han]
  refine .ite (fun _ => nil_rel) fun _ => ?_
  refine (questionName_rel hread hle _ _ _ _).bind fun r r' hr => ?_
  rcases hr with rfl | ⟨hcut, hfull⟩
  · refine .ite (fun _ => nil_rel) fun _ => ?_
    refine (skipQuestions_rel hread hle hsmall _ _ _ _).bind fun s s' hs => ?_
    rcases hs with rfl | ⟨hcut, hfull⟩
    · exact answerRecords_rel hread hle hsmall _ _ _ _ _
    · refine .of_left fun l hl l' => ?_
      rw [hbehind hcut hfull hl]
      exact List.nil_prefix
  · -- the question name is cut off
    refine .of_left fun l hl l' => ?_
    dsimp only at hl
    split at hl
    case isTrue =>
      obtain rfl := Except.ok.inj hl
      exact List.nil_prefix
    case isFalse =>
      cases hs : skipQuestions rd base cut fuel (qdcount'.toNat - 1) r.1 with
      | error e =>
        rw [hs] at hl
        cases hl
      | ok s =>
        rw [hs, skipQuestions_of_le hcut hs] at hl
        rw [hbehind hcut (by omega) hl]
        exact List.nil_prefix

end Parser

/-- **Truncated captures.** For every memory and every two capture lengths, of which the first is
not the larger, the parser's insertions for the first are the start of those for the second. For
all lengths but the largest it has a result for both. -/
theorem dnsParse_prefix (mem : ℕ → UInt8) {n n' : UInt32} (h : n ≤ n') :
    (∀ l l', dnsParse (captureReader n.toNat mem) n = .ok l →
      dnsParse (captureReader n'.toNat mem) n' = .ok l' → l <+: l') ∧
    (n'.toNat + 182 ≤ 2 ^ 32 → ∃ l l', dnsParse (captureReader n.toNat mem) n = .ok l ∧
      dnsParse (captureReader n'.toNat mem) n' = .ok l') := by
  have hle := UInt32.le_iff_toNat_le.mp h
  refine ⟨?_, fun hsmall => ?_⟩
  · change Rel (· <+: ·) _ _
    have hread (i : ℕ) : Rel Eq (captureReader n.toNat mem i) (captureReader n'.toNat mem i) := by
      intro b b' hb hb'
      rw [captureReader] at hb hb'
      split at hb
      case isFalse => cases hb
      case isTrue hi =>
        rw [if_pos (lt_of_lt_of_le hi hle)] at hb'
        exact (Except.ok.inj hb).symm.trans (Except.ok.inj hb')
    refine .ite_of_imp' (fun hlt => UInt32.lt_of_le_of_lt h hlt) (fun _ => nil_rel) (fun _ => ?_)
      (fun _ _ => nil_rel)
    refine (hread 0).bind fun b b' hb => ?_
    rw [hb]
    dsimp only
    generalize (b' &&& 0xf) * 4 = ihl
    refine .ite_of_imp' (fun hno => hno.imp_right (UInt32.lt_of_le_of_lt h)) (fun _ => nil_rel)
      (fun hheader => ?_) (fun _ _ => nil_rel)
    obtain ⟨hmin, hheader⟩ := not_or.mp hheader
    have htwenty : (20 : UInt8).toNat = 20 := rfl
    rw [UInt8.lt_iff_toNat_lt, not_lt] at hmin
    have hlt := n'.toNat_lt
    obtain ⟨hroom, hcut⟩ := toNat_dnsLen hheader
    obtain ⟨hroom', hfull⟩ := toNat_dnsLen (mt (UInt32.lt_of_le_of_lt h) hheader)
    refine dnsParseMessage_rel hread ?_ (by omega) _ _
    rw [UInt32.le_iff_toNat_le]
    omega
  · obtain ⟨l, hl⟩ := exists_dnsParse_eq_ok (captureReader_covers n.toNat mem) (by omega)
    obtain ⟨l', hl'⟩ := exists_dnsParse_eq_ok (captureReader_covers n'.toNat mem) hsmall
    exact ⟨l, l', hl, hl'⟩

/-- A DNS response with the addresses 1.2.3.4 and 5.6.7.8 for `a.b`. -/
def twoAddresses : Bytes :=
  [0x45, 0, 0, 81, 0, 0, 0, 0, 64, 17, 0, 0, 8, 8, 8, 8, 10, 0, 0, 1,
    0, 53, 0x9C, 0x40, 0, 61, 0, 0, 1, 2, 0x81, 0x80, 0, 1, 0, 2, 0, 0, 0, 0,
    1, 97, 1, 98, 0, 0, 1, 0, 1,
    0xC0, 12, 0, 1, 0, 1, 0, 0, 0, 60, 0, 4, 1, 2, 3, 4,
    0xC0, 12, 0, 1, 0, 1, 0, 0, 0, 30, 0, 4, 5, 6, 7, 8]

/-- The second address is cut off. -/
theorem dnsParse_prefix_twoAddresses :
    let mem := fun i => twoAddresses.getD i 0
    let first : DnsAnswer := ⟨0x04030201, text "a.b", 60⟩
    let second : DnsAnswer := ⟨0x08070605, text "a.b", 30⟩
    dnsParse (captureReader 70 mem) 70 = .ok [first] ∧
      dnsParse (captureReader 81 mem) 81 = .ok [first, second] ∧ [first] <+: [first, second] := by
  intro mem first second
  have hcut : dnsParse (captureReader 70 mem) 70 = .ok [first] := by decide +kernel
  have hfull : dnsParse (captureReader 81 mem) 81 = .ok [first, second] := by decide +kernel
  have hle : (70 : UInt32) ≤ 81 := by decide
  have hgrows := dnsParse_prefix mem hle
  exact ⟨hcut, hfull, hgrows.1 _ _ hcut hfull⟩

end NdpiObserve
