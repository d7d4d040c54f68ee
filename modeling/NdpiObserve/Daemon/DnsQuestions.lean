import NdpiObserve.Daemon.DnsAnswers

/-!
# The question section of a DNS message

The parser copies the first question name into an array of 80 bytes. Once 79 characters are there,
the loop takes what is left of the name for the lengths of labels, one byte at a time, and stops
at the first byte that looks like the end of a name. The names of further questions are skipped
from the query type of the question before them on.

## Main definitions

* `Passes`: bytes that the loop walks over when the array is full.
* `extendName`: the text of a name behind the characters that are already copied.
* `Misread`: bytes that read as names with four bytes behind each.

## Main results

* `questionName_wire`: the copy of a question name, and where it ends.
* `skipQuestions_iff`: where the further questions end.
-/

namespace NdpiObserve

open Dns

/-! ### Walking over a name -/

/-- The bytes are no zero bytes and no pointers, up to the last one, which may be a pointer. -/
def Passes : Bytes → Prop
  | [] => True
  | b :: w => (b ≠ 0 ∧ ¬isPointer b ∧ Passes w) ∨ (isPointer b ∧ w = [])

instance decidablePasses : DecidablePred Passes
  | [] => isTrue trivial
  | b :: w =>
    have := decidablePasses w
    inferInstanceAs (Decidable ((b ≠ 0 ∧ ¬isPointer b ∧ Passes w) ∨ (isPointer b ∧ w = [])))

/-- Bytes that the walk treats alike. -/
def SameKind (a b : UInt8) : Prop := (a = 0 ↔ b = 0) ∧ (isPointer a ↔ isPointer b)

theorem passes_congr {w w' : Bytes} (h : List.Forall₂ SameKind w w') : Passes w ↔ Passes w' := by
  induction h with
  | nil => rfl
  | @cons a b w w' hab htail ih =>
    have hnil : w = [] ↔ w' = [] := by
      rw [← List.length_eq_zero_iff, htail.length_eq, List.length_eq_zero_iff]
    rw [Passes, Passes, ih, hnil, ne_eq, ne_eq, hab.1, hab.2]

/-- The lengths of labels are walked over like dots. -/
theorem passes_labels (w : Bytes) (ls : List Label) :
    Passes (w ++ labelsWire ls) ↔ Passes (w ++ dotLabels ls) := by
  have hrefl (w : Bytes) : List.Forall₂ SameKind w w :=
    List.forall₂_same.mpr fun _ _ => ⟨Iff.rfl, Iff.rfl⟩
  refine passes_congr (List.rel_append (hrefl w) ?_)
  induction ls with
  | nil => exact .nil
  | cons l ls ih =>
    rw [labelsWire_cons, dotLabels_cons]
    refine .cons ⟨?_, ?_⟩ (List.rel_append (hrefl l.bytes) ih)
    · exact iff_of_false l.length_ne_zero (by decide)
    · rw [isPointer_iff, isPointer_iff]
      exact iff_of_false l.not_isPointer_length (not_isPointer_of_lt (by decide))

/-- The bytes read as `n` names with four bytes behind each. -/
inductive Misread : ℕ → Bytes → Prop
  | nil : Misread 0 []
  | cons {n : ℕ} {s four rest : Bytes} (hs : RawName s) (hfour : four.length = 4)
    (h : Misread n rest) : Misread (n + 1) (s ++ (four ++ rest))

/-- A zero byte reads as the root. -/
theorem misread_zero_cons_iff {bs : Bytes} : Misread 1 (0 :: bs) ↔ bs.length = 4 := by
  constructor
  · intro h
    generalize hbs : 0 :: bs = l at h
    cases h with
    | cons hs hfour hrest =>
      cases hrest
      cases hs with
      | zero =>
        rw [List.append_nil, List.singleton_append] at hbs
        rw [(List.cons.inj hbs).2, hfour]
      | pointer n b h =>
        rw [← (List.cons.inj hbs).1] at h
        exact absurd h (not_isPointer_of_lt (by decide))
      | label n bytes rest hpos =>
        exact absurd (List.cons.inj hbs).1.symm hpos
  · intro h
    have hroot := Misread.cons .zero h .nil
    rwa [List.append_nil] at hroot

section Parser

variable {rd : Reader} {base : ℕ} {dnsLen : UInt32}

theorem copyLabel_full {qname : Bytes} (h : qname.length = 79) (k : ℕ) (off : UInt32) :
    copyLabel rd base dnsLen k off qname = .ok (off, qname) := by
  cases k with
  | zero => rfl
  | succ k => rw [copyLabel, if_neg fun hroom => by omega]

/-- A label is copied as far as there is room for it. -/
theorem copyLabel_wire (bs : Bytes) {off : UInt32} {qname : Bytes} (hq : qname.length ≤ 79)
    (hold : rd.Holds (base + off.toNat) bs) (hend : off.toNat + bs.length ≤ dnsLen.toNat) :
    ∃ r : UInt32, copyLabel rd base dnsLen bs.length off qname =
        .ok (r, qname ++ bs.take (79 - qname.length)) ∧
      r.toNat = off.toNat + min bs.length (79 - qname.length) := by
  have hlt := dnsLen.toNat_lt
  induction bs generalizing off qname with
  | nil => exact ⟨off, by simp [copyLabel], by simp⟩
  | cons b bs ih =>
    rw [List.length_cons] at hend
    by_cases hfull : qname.length = 79
    · refine ⟨off, ?_, by omega⟩
      rw [copyLabel_full hfull, hfull, Nat.sub_self, List.take_zero, List.append_nil]
    · have hone : (off + 1).toNat = off.toNat + 1 := toNat_add_of_lt rfl (by omega)
      have hroom : off < dnsLen ∧ qname.length < 79 :=
        ⟨UInt32.lt_iff_toNat_lt.mpr (by omega), by omega⟩
      have hlen : (qname ++ [b]).length = qname.length + 1 := by simp
      obtain ⟨r, hr, hto⟩ := @ih (off + 1) (qname ++ [b]) (by omega)
        (hold.tail.of_eq (by omega)) (by omega)
      refine ⟨r, ?_, by rw [hto, hlen, List.length_cons]; omega⟩
      obtain ⟨room, hsub⟩ : ∃ n, 79 - qname.length = n + 1 := ⟨78 - qname.length, by omega⟩
      rw [List.length_cons, copyLabel, if_pos hroom, dnsAt_of_holds hold]
      refine hr.trans ?_
      have hsub' : 79 - (qname ++ [b]).length = room := by omega
      rw [hsub', hsub, List.take_succ_cons, List.append_assoc, List.singleton_append]

/-- With a full array the loop over the labels walks byte by byte, and it is right about the end of
the name exactly when the bytes let it pass. -/
theorem questionName_full {qname : Bytes} (hq : qname.length = 79) (w : Bytes) {fuel : ℕ}
    {off : UInt32} (hold : rd.Holds (base + off.toNat) (w ++ [0]))
    (hend : off.toNat + w.length + 1 ≤ dnsLen.toNat) (hfuel : w.length + 1 ≤ fuel) :
    ∃ r : UInt32, questionName rd base dnsLen fuel off qname = .ok (r, qname) ∧
      (r.toNat = off.toNat + w.length + 1 ↔ Passes w) := by
  have hlt := dnsLen.toNat_lt
  have hone : (off + 1).toNat = off.toNat + 1 := toNat_add_of_lt rfl (by omega)
  have hin : off < dnsLen := UInt32.lt_iff_toNat_lt.mpr (by omega)
  induction w generalizing fuel off with
  | nil =>
    obtain ⟨fuel, rfl⟩ : ∃ f, fuel = f + 1 := ⟨fuel - 1, by omega⟩
    refine ⟨off + 1, ?_, iff_of_true hone trivial⟩
    rw [questionName, if_pos hin, dnsAt_of_holds hold]
    rfl
  | cons b w ih =>
    obtain ⟨fuel, rfl⟩ : ∃ f, fuel = f + 1 := ⟨fuel - 1, by omega⟩
    rw [List.length_cons] at hend hfuel ⊢
    rw [questionName, if_pos hin, dnsAt_of_holds hold]
    simp only [bind, Except.bind]
    have htwo : (off + 1 + 1).toNat = off.toNat + 2 := by
      rw [toNat_add_of_lt (k := 1) rfl (by omega), hone]
    by_cases hzero : b = 0
    · refine ⟨off + 1, by rw [if_pos hzero], iff_of_false (by omega) ?_⟩
      rintro (h | h)
      · exact h.1 hzero
      · rw [hzero] at h
        exact absurd h.1 (by decide)
    · by_cases hpointer : isPointer b
      · refine ⟨off + 1 + 1, by rw [if_neg hzero, if_pos hpointer], ?_⟩
        rw [htwo, Passes]
        constructor
        · intro h
          exact .inr ⟨hpointer, List.length_eq_zero_iff.mp (by omega)⟩
        · rintro (h | ⟨-, rfl⟩)
          · exact absurd hpointer h.2.1
          · rfl
      · obtain ⟨r, hr, hiff⟩ := @ih fuel (off + 1) (hold.tail.of_eq (by omega))
          (by omega) (by omega) (by rw [htwo]; omega)
          (UInt32.lt_iff_toNat_lt.mpr (by omega))
        refine ⟨r, ?_, ?_⟩
        · rw [if_neg hzero, if_neg hpointer, if_neg fun h => by omega, copyLabel_full hq]
          exact hr
        · rw [Passes, or_iff_left fun h => hpointer h.1, and_iff_right hzero,
            and_iff_right hpointer, ← hiff]
          omega

/-- The text of the labels, after the characters that are already in the array. -/
def extendName (qname : Bytes) (ls : List Label) : Bytes :=
  if qname = [] then dotted ls else qname ++ dotLabels ls

/-- A label is copied behind a dot, unless it is the first. -/
theorem extendName_cons {qname : Bytes} (h : qname.length < 79) (l : Label) (ls : List Label) :
    let q := if 0 < qname.length ∧ qname.length < 79 then qname ++ text "." else qname
    q.length ≤ 79 ∧ extendName qname (l :: ls) = q ++ (l.bytes ++ dotLabels ls) := by
  have hdot : text "." = [46] := by decide +kernel
  intro q
  cases qname with
  | nil => exact ⟨Nat.zero_le _, dotted_cons l ls⟩
  | cons b qname =>
    have hq : q = b :: qname ++ [46] := (if_pos ⟨Nat.succ_pos _, h⟩).trans (by rw [hdot])
    have hlen : q.length = (b :: qname).length + 1 := by rw [hq, List.length_append]; rfl
    refine ⟨by omega, ?_⟩
    rw [extendName, if_neg (List.cons_ne_nil _ _), hq, dotLabels_cons, List.append_assoc,
      List.singleton_append]

/-- **The question name.** The copy of a name holds the first 79 characters of its text, and the
loop is right about the end of the name exactly when the other characters let it pass. -/
theorem questionName_wire (ls : List Label) {fuel : ℕ} {off : UInt32} {qname : Bytes}
    (hq : qname.length ≤ 79) (hold : rd.Holds (base + off.toNat) (labelsWire ls ++ [0]))
    (hend : off.toNat + (labelsWire ls).length + 1 ≤ dnsLen.toNat)
    (hfuel : (labelsWire ls).length + 1 ≤ fuel) :
    ∃ r : UInt32,
      questionName rd base dnsLen fuel off qname = .ok (r, (extendName qname ls).take 79) ∧
        (r.toNat = off.toNat + (labelsWire ls).length + 1 ↔
          Passes ((extendName qname ls).drop 79)) := by
  have hlt := dnsLen.toNat_lt
  induction ls generalizing fuel off qname with
  | nil =>
    obtain ⟨fuel, rfl⟩ : ∃ f, fuel = f + 1 := ⟨fuel - 1, by omega⟩
    have hin : off < dnsLen := UInt32.lt_iff_toNat_lt.mpr (by omega)
    have htext : extendName qname [] = qname := by
      rw [extendName]
      split
      case isTrue h => exact h.symm
      case isFalse => exact List.append_nil qname
    rw [htext, List.take_of_length_le hq, List.drop_of_length_le hq, questionName, if_pos hin,
      dnsAt_of_holds hold]
    exact ⟨off + 1, rfl, iff_of_true (toNat_add_of_lt rfl (by simp at hend; omega)) trivial⟩
  | cons l ls ih =>
    by_cases hfull : qname.length = 79
    · -- no room: the labels are walked over
      have hne : qname ≠ [] := by
        rintro rfl
        cases hfull
      have hwalk := passes_labels [] (l :: ls)
      rw [List.nil_append, List.nil_append] at hwalk
      rw [extendName, if_neg hne, ← hfull, List.take_left, List.drop_left, ← hwalk]
      exact questionName_full hfull _ hold hend hfuel
    · obtain ⟨hroom, htext⟩ := extendName_cons (lt_of_le_of_ne hq hfull) l ls
      have hwire : labelsWire (l :: ls) ++ [0] =
          UInt8.ofNat l.bytes.length :: (l.bytes ++ (labelsWire ls ++ [0])) := by
        rw [labelsWire_cons, List.append_assoc]
        rfl
      have hlen : (labelsWire (l :: ls)).length =
          l.bytes.length + 1 + (labelsWire ls).length := by
        rw [labelsWire_cons, List.length_append, Label.length_wire]
      rw [hwire] at hold
      rw [hlen] at hend hfuel ⊢
      obtain ⟨fuel, rfl⟩ : ∃ f, fuel = f + 1 := ⟨fuel - 1, by omega⟩
      have hin : off < dnsLen := UInt32.lt_iff_toNat_lt.mpr (by omega)
      have hone : (off + 1).toNat = off.toNat + 1 := toNat_add_of_lt rfl (by omega)
      rw [questionName, if_pos hin, dnsAt_of_holds hold]
      simp only [bind, Except.bind, if_neg l.length_ne_zero,
        if_neg (mt (isPointer_iff _).mp l.not_isPointer_length), l.toNat_length]
      rw [htext]
      generalize (if 0 < qname.length ∧ qname.length < 79 then qname ++ text "." else qname) = q
        at hroom
      obtain ⟨p, hp, hpt⟩ : ∃ p : UInt32,
          copyLabel rd base dnsLen l.bytes.length (off + 1) q =
            .ok (p, q ++ l.bytes.take (79 - q.length)) ∧
          p.toNat = (off + 1).toNat + min l.bytes.length (79 - q.length) :=
        copyLabel_wire l.bytes hroom (hold.tail.left.of_eq (by omega)) (by omega)
      rw [hp]
      dsimp only
      have hrest := hold.tail.right
      by_cases hfits : l.bytes.length ≤ 79 - q.length
      · -- the whole label
        rw [min_eq_left hfits] at hpt
        rw [List.take_of_length_le hfits]
        have hlabel : q ++ l.bytes ≠ [] := by
          intro h
          have hpos := l.pos
          rw [(List.append_eq_nil_iff.mp h).2] at hpos
          exact absurd hpos (lt_irrefl 0)
        obtain ⟨r, hr, hiff⟩ := @ih fuel p (q ++ l.bytes)
          (by rw [List.length_append]; omega) (hrest.of_eq (by omega)) (by omega) (by omega)
        rw [extendName, if_neg hlabel, List.append_assoc] at hr hiff
        exact ⟨r, hr, by rw [← hiff]; omega⟩
      · -- a part of the label: what is left of it is walked over
        rw [min_eq_right (by omega)] at hpt
        have hfilled : (q ++ l.bytes.take (79 - q.length)).length = 79 := by
          rw [List.length_append, List.length_take]
          omega
        have hsplit : q ++ (l.bytes ++ dotLabels ls) =
            q ++ l.bytes.take (79 - q.length) ++
              (l.bytes.drop (79 - q.length) ++ dotLabels ls) := by
          rw [List.append_assoc, ← List.append_assoc (l.bytes.take _), List.take_append_drop]
        have hleft : rd.Holds (base + p.toNat)
            (l.bytes.drop (79 - q.length) ++ labelsWire ls ++ [0]) := by
          have hlabel := hold.tail
          rw [← List.take_append_drop (79 - q.length) l.bytes, List.append_assoc] at hlabel
          rw [List.append_assoc]
          refine hlabel.right.of_eq ?_
          rw [List.length_take]
          omega
        have hwlen : (l.bytes.drop (79 - q.length) ++ labelsWire ls).length =
            l.bytes.length - (79 - q.length) + (labelsWire ls).length := by
          rw [List.length_append, List.length_drop]
        obtain ⟨r, hr, hiff⟩ : ∃ r : UInt32,
            questionName rd base dnsLen fuel p (q ++ l.bytes.take (79 - q.length)) =
              .ok (r, q ++ l.bytes.take (79 - q.length)) ∧
            (r.toNat = p.toNat + (l.bytes.drop (79 - q.length) ++ labelsWire ls).length + 1 ↔
              Passes (l.bytes.drop (79 - q.length) ++ labelsWire ls)) :=
          questionName_full hfilled _ hleft (by omega) (by omega)
        rw [passes_labels] at hiff
        rw [hsplit, List.take_left' hfilled, List.drop_left' hfilled]
        exact ⟨r, hr, by rw [← hiff]; omega⟩

/-! ### Further questions -/

/-- A loop over a name does not move the offset back, and only a little behind the message. -/
theorem skipName_bounds (hsmall : dnsLen.toNat + 210 ≤ 2 ^ 32) {fuel : ℕ} {off r : UInt32}
    (hr : skipName rd base dnsLen fuel off = .ok r) :
    off.toNat ≤ r.toNat ∧ r.toNat ≤ max off.toNat (dnsLen.toNat + 191) ∧
      (off < dnsLen → off.toNat < r.toNat) := by
  induction fuel generalizing off with
  | zero => cases hr
  | succ fuel ih =>
    rw [skipName] at hr
    split at hr
    case isFalse hout =>
      obtain rfl := Except.ok.inj hr
      exact ⟨le_rfl, le_max_left _ _, fun h => absurd h hout⟩
    case isTrue hin =>
      have hoff := UInt32.lt_iff_toNat_lt.mp hin
      cases hb : dnsAt rd base off with
      | error e => simp [hb, bind, Except.bind] at hr
      | ok n =>
        simp only [hb, bind, Except.bind] at hr
        split_ifs at hr with hzero hpointer
        · obtain rfl := Except.ok.inj hr
          have hone : (off + 1).toNat = off.toNat + 1 := toNat_add_of_lt rfl (by omega)
          omega
        · obtain rfl := Except.ok.inj hr
          have htwo : (off + 2).toNat = off.toNat + 2 := toNat_add_of_lt rfl (by omega)
          omega
        · have hn := toNat_lt_of_not_isPointer hpointer
          have hlabel : (1 + n.toUInt32).toNat = 1 + n.toNat := by
            rw [UInt32.toNat_add, UInt8.toNat_toUInt32, UInt32.toNat_one]
            omega
          have hnext : (off + (1 + n.toUInt32)).toNat = off.toNat + (1 + n.toNat) :=
            toNat_add_of_lt hlabel (by omega)
          have hrest := ih hr
          omega

/-- What a loop over a name has passed, if it ends inside the bytes, reads as a name. -/
theorem rawName_of_skipName (hsmall : dnsLen.toNat + 210 ≤ 2 ^ 32) {fuel : ℕ} {off r : UInt32}
    {bs : Bytes} (hold : rd.Holds (base + off.toNat) bs)
    (hend : off.toNat + bs.length < dnsLen.toNat)
    (hr : skipName rd base dnsLen fuel off = .ok r) (hle : r.toNat ≤ off.toNat + bs.length) :
    ∃ s rest, bs = s ++ rest ∧ RawName s ∧ r.toNat = off.toNat + s.length := by
  induction fuel generalizing off bs with
  | zero => cases hr
  | succ fuel ih =>
    have hin : off < dnsLen := UInt32.lt_iff_toNat_lt.mpr (by omega)
    have hmoved := (skipName_bounds hsmall hr).2.2 hin
    cases bs with
    | nil => simp at hle; omega
    | cons b bs =>
      rw [List.length_cons] at hend hle
      rw [skipName, if_pos hin, dnsAt_of_holds hold] at hr
      simp only [bind, Except.bind] at hr
      split_ifs at hr with hzero hpointer
      · obtain rfl := Except.ok.inj hr
        rw [hzero]
        exact ⟨[0], bs, rfl, .zero, toNat_add_of_lt (k := 1) rfl (by omega)⟩
      · obtain rfl := Except.ok.inj hr
        have htwo : (off + 2).toNat = off.toNat + 2 := toNat_add_of_lt rfl (by omega)
        cases bs with
        | nil => simp at hle; omega
        | cons c bs => exact ⟨[b, c], bs, rfl, .pointer b c ((isPointer_iff b).mp hpointer), htwo⟩
      · have hn := toNat_lt_of_not_isPointer hpointer
        have hlabel : (1 + b.toUInt32).toNat = 1 + b.toNat := by
          rw [UInt32.toNat_add, UInt8.toNat_toUInt32, UInt32.toNat_one]
          omega
        have hnext : (off + (1 + b.toUInt32)).toNat = off.toNat + (1 + b.toNat) :=
          toNat_add_of_lt hlabel (by omega)
        have hfits := (skipName_bounds hsmall hr).1
        have htake : (bs.take b.toNat).length = b.toNat := by
          rw [List.length_take]
          omega
        have hsplit := List.take_append_drop b.toNat bs
        have hrest : rd.Holds (base + (off + (1 + b.toUInt32)).toNat) (bs.drop b.toNat) := by
          have htail := hold.tail
          rw [← hsplit] at htail
          exact htail.right.of_eq (by omega)
        obtain ⟨s, rest, hdrop, hs, hto⟩ := ih hrest (by rw [List.length_drop]; omega) hr
          (by rw [List.length_drop]; omega)
        refine ⟨b :: (bs.take b.toNat ++ s), rest, ?_, .label b _ s hzero
          (mt (isPointer_iff b).mpr hpointer) htake hs, ?_⟩
        · rw [List.cons_append, List.append_assoc, ← hdrop, hsplit]
        · rw [List.length_cons, List.length_append]
          omega

theorem le_of_skipQuestions (hsmall : dnsLen.toNat + 210 ≤ 2 ^ 32) {fuel k : ℕ} {off r : UInt32}
    (hr : skipQuestions rd base dnsLen fuel k off = .ok r) : off.toNat ≤ r.toNat := by
  induction k generalizing off with
  | zero => rw [Except.ok.inj hr]
  | succ k ih =>
    rw [skipQuestions] at hr
    split at hr
    case isFalse => rw [Except.ok.inj hr]
    case isTrue hin =>
      have hoff := UInt32.lt_iff_toNat_lt.mp hin
      cases hp : skipName rd base dnsLen fuel off with
      | error e => simp [hp, bind, Except.bind] at hr
      | ok p =>
        simp only [hp, bind, Except.bind] at hr
        have hbounds := skipName_bounds hsmall hp
        have hfour : (p + 4).toNat = p.toNat + 4 := toNat_add_of_lt rfl (by omega)
        have hrest := ih hr
        omega

/-- **Further questions.** The loop over the further questions ends with the bytes exactly when
these read as so many names with four bytes behind each. -/
theorem skipQuestions_iff (hsmall : dnsLen.toNat + 210 ≤ 2 ^ 32) {fuel : ℕ}
    (hfuel : dnsLen.toNat < fuel) {k : ℕ} {off r : UInt32} {bs : Bytes}
    (hold : rd.Holds (base + off.toNat) bs) (hend : off.toNat + bs.length < dnsLen.toNat)
    (hr : skipQuestions rd base dnsLen fuel k off = .ok r) :
    r.toNat = off.toNat + bs.length ↔ Misread k bs := by
  induction k generalizing off bs with
  | zero =>
    obtain rfl := Except.ok.inj hr
    constructor
    · intro h
      obtain rfl : bs = [] := List.length_eq_zero_iff.mp (by omega)
      exact .nil
    · rintro ⟨⟩
      rfl
  | succ k ih =>
    have hin : off < dnsLen := UInt32.lt_iff_toNat_lt.mpr (by omega)
    rw [skipQuestions, if_pos hin] at hr
    cases hp : skipName rd base dnsLen fuel off with
    | error e => simp [hp, bind, Except.bind] at hr
    | ok p =>
      simp only [hp, bind, Except.bind] at hr
      have hbounds := skipName_bounds hsmall hp
      have hfour : (p + 4).toNat = p.toNat + 4 := toNat_add_of_lt rfl (by omega)
      have hmoved := le_of_skipQuestions hsmall hr
      constructor
      · intro hto
        obtain ⟨s, rest, rfl, hs, hpt⟩ := rawName_of_skipName hsmall hold hend hp (by omega)
        rw [List.length_append] at hto hend
        have hrest := hold.right
        rw [← List.take_append_drop 4 rest] at hrest ⊢
        have htake : (rest.take 4).length = 4 := by
          rw [List.length_take]
          omega
        refine .cons hs htake ((@ih (p + 4) _ (hrest.right.of_eq (by omega)) ?_ hr).mp ?_)
        · rw [List.length_drop]
          omega
        · rw [List.length_drop]
          omega
      · intro hbs
        cases hbs with
        | @cons _ s four rest hs hlen hrest =>
          rw [List.length_append, List.length_append] at hend ⊢
          obtain ⟨p', hp', hpt⟩ : ∃ p', skipName rd base dnsLen fuel off = .ok p' ∧
              p'.toNat = off.toNat + s.length :=
            skipName_of_rawName hs hold.left (by omega) (by omega)
          obtain rfl := Except.ok.inj (hp'.symm.trans hp)
          have hto := (@ih (p' + 4) _ (hold.right.right.of_eq (by omega)) (by omega) hr).mpr hrest
          omega

end Parser

end NdpiObserve
