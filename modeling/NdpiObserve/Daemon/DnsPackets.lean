import NdpiObserve.Daemon.DnsQuestions

/-!
# Whole DNS responses

A packet with a DNS response in wire format is given to the parser. Two questions are settled here:
for which question names the parser finds the end of the name and the addresses of the message, and
for which question sections it starts to read answer records where the section ends.

## Main definitions

* `DnsPacket`: an IP header, a UDP header and a message.
* `answersStart`: with what the walk over the answer records starts.
* `DnsPacket.ReadsName`, `DnsPacket.StartsAtEnd`: what the parser should do.

## Main results

* `DnsPacket.readsName_iff`: single questions with names of any length.
* `DnsPacket.startsAtEnd_iff`: question sections of any size.
-/

namespace NdpiObserve

open Dns

section Parser

variable (rd : Reader) (base : ℕ) (dnsLen : UInt32) (fuel : ℕ)

/-- The offset, the name and the number of records that the walk over the answer records starts
with, if the parser gets there. -/
def answersStart : Except ReadFault (Option (UInt32 × Bytes × UInt16)) := do
  let flags ← field16 rd base 2
  let qdcount ← field16 rd base 4
  let ancount ← field16 rd base 6
  if flags &&& 0x8000 = 0 ∨ ancount = 0 ∨ qdcount = 0 then .ok none
  else do
    let r ← questionName rd base dnsLen fuel 12 []
    if cString r.2 = [] then .ok none
    else do
      let off ← skipQuestions rd base dnsLen fuel (qdcount.toNat - 1) r.1
      .ok (some (off + 4, cString r.2, ancount))

/-- The parser is the walk over the answer records from its start on. -/
theorem dnsParseMessage_eq : dnsParseMessage rd base dnsLen fuel =
    (answersStart rd base dnsLen fuel >>= fun start =>
      start.elim (.ok []) fun s => answerRecords rd base dnsLen fuel s.2.1 s.2.2.toNat s.1) := by
  simp only [dnsParseMessage, answersStart, bind, Except.bind]
  cases field16 rd base 2 with
  | error e => rfl
  | ok flags =>
    cases field16 rd base 4 with
    | error e => rfl
    | ok qdcount =>
      cases field16 rd base 6 with
      | error e => rfl
      | ok ancount =>
        dsimp only
        split_ifs
        · rfl
        · cases questionName rd base dnsLen fuel 12 [] with
          | error e => rfl
          | ok r =>
            dsimp only
            split_ifs
            · rfl
            · cases skipQuestions rd base dnsLen fuel (qdcount.toNat - 1) r.1 <;> rfl

end Parser

/-! ### Packets -/

/-- A packet with a DNS message: the IP header, as long as its first byte says, the UDP header and
the message. -/
structure DnsPacket where
  headers : Bytes
  message : Message
  headers_length : headers.length = ((headers.headD 0 &&& 0xf) * 4).toNat + 8
  min : 28 ≤ headers.length
  fits : headers.length + message.wire.length + 182 ≤ 2 ^ 32

/-! ### Sample packets -/

/-- The headers of a packet with `n` bytes of message. -/
def dnsHeaders (n : ℕ) : Bytes :=
  [0x45, 0, 0, UInt8.ofNat (28 + n), 0, 0, 0, 0, 64, 17, 0, 0, 8, 8, 8, 8, 10, 0, 0, 1,
    0, 53, 0x9C, 0x40, 0, UInt8.ofNat (8 + n), 0, 0]

/-- A message behind such headers. -/
def packetOf (m : Message) (h : m.wire.length < 2 ^ 16) : DnsPacket where
  headers := dnsHeaders m.wire.length
  message := m
  headers_length := by
    have hlen : (dnsHeaders m.wire.length).length = 28 := rfl
    have hfirst : (dnsHeaders m.wire.length).headD 0 = 0x45 := rfl
    rw [hlen, hfirst]
    decide
  min := le_rfl
  fits := by
    have hlen : (dnsHeaders m.wire.length).length = 28 := rfl
    omega

/-- The response 1.2.3.4 to questions for addresses. -/
def response (names : List Name) (h : names.length < 2 ^ 16) : Message where
  id := 0x0102
  flags := 0x8180
  questions := names.map fun n => ⟨n, 1, 1⟩
  answers := [sampleAddress]
  authority := []
  additional := []
  questions_lt := by rwa [List.length_map]
  answers_lt := by decide

/-- A label of 63 letters. -/
def longLabel : Label := ⟨List.replicate 63 97, by decide, by decide⟩

/-- 63 letters, a dot, 16 letters, and one letter that takes two bytes. -/
def accentedName : Name :=
  ⟨[longLabel, ⟨List.replicate 16 98 ++ [0xC3, 0xA9, 98], by decide, by decide⟩], by decide +kernel⟩

/-- 63 letters, a dot and 19 letters. -/
def plainName : Name :=
  ⟨[longLabel, ⟨List.replicate 19 98, by decide, by decide⟩], by decide +kernel⟩

namespace DnsPacket

variable (p : DnsPacket)

def bytes : Bytes := p.headers ++ p.message.wire

/-- The captured packet. -/
def reader : Reader := captureReader p.bytes.length fun i => p.bytes.getD i 0

def len : UInt32 := UInt32.ofNat p.bytes.length

def dnsLen : UInt32 := UInt32.ofNat p.message.wire.length

theorem toNat_len : p.len.toNat = p.bytes.length := by
  have hfits := p.fits
  rw [len, UInt32.toNat_ofNat', Nat.mod_eq_of_lt]
  rw [bytes, List.length_append]
  omega

theorem toNat_dnsLen : p.dnsLen.toNat = p.message.wire.length := by
  have hfits := p.fits
  rw [dnsLen, UInt32.toNat_ofNat', Nat.mod_eq_of_lt (by omega)]

theorem holds_bytes : p.reader.Holds 0 p.bytes := by
  refine captureReader_holds (by rw [Nat.zero_add]) fun i hi => ?_
  rw [Nat.zero_add, List.getD_eq_getElem _ _ hi]

/-- The message stands behind the headers. -/
theorem holds_message : p.reader.Holds p.headers.length p.message.wire :=
  p.holds_bytes.right.of_eq (Nat.zero_add _)

theorem length_header : p.message.header.length = 12 := rfl

/-- The parser gets to the message. -/
theorem dnsParse_eq : dnsParse p.reader p.len =
    dnsParseMessage p.reader p.headers.length p.dnsLen (p.bytes.length + 1) := by
  have hmin := p.min
  have hfits := p.fits
  have hlen := p.toNat_len
  have hheader : p.message.wire.length = 12 + (p.message.questionsWire ++
      (recordsWire p.message.answers ++ (recordsWire p.message.authority ++
        recordsWire p.message.additional))).length := by
    rw [Message.wire, List.length_append, p.length_header]
  have hbytes : p.bytes.length = p.headers.length + p.message.wire.length := List.length_append
  have hlong : ¬p.len < 40 := by
    have hforty : (40 : UInt32).toNat = 40 := rfl
    rw [UInt32.lt_iff_toNat_lt]
    omega
  have hfirst : p.reader 0 = .ok (p.headers.headD 0) := by
    have hheaders := p.holds_bytes.left
    cases h : p.headers with
    | nil =>
      rw [h] at hmin
      simp at hmin
    | cons b rest =>
      rw [h] at hheaders
      exact hheaders.head
  have hihl := p.headers_length
  rw [dnsParse, if_neg hlong, hfirst]
  simp only [bind, Except.bind]
  generalize (p.headers.headD 0 &&& 0xf) * 4 = ihl at hihl
  have hroom : ¬(ihl < 20 ∨ p.len < ihl.toUInt32 + 8 + 12) := by
    have htwenty : (20 : UInt8).toNat = 20 := rfl
    have hlt := ihl.toNat_lt
    have hwide : ihl.toUInt32.toNat = ihl.toNat := UInt8.toNat_toUInt32 ihl
    have height : (ihl.toUInt32 + 8).toNat = ihl.toUInt32.toNat + 8 :=
      toNat_add_of_lt rfl (by omega)
    have htwelve : (ihl.toUInt32 + 8 + 12).toNat = (ihl.toUInt32 + 8).toNat + 12 :=
      toNat_add_of_lt rfl (by omega)
    rw [UInt8.lt_iff_toNat_lt, UInt32.lt_iff_toNat_lt]
    omega
  have hdns : p.len - ihl.toUInt32 - 8 = p.dnsLen := by
    refine UInt32.toNat_inj.mp ?_
    rw [(NdpiObserve.toNat_dnsLen (fun h => hroom (.inr h))).2, p.toNat_dnsLen, hlen]
    omega
  rw [if_neg hroom, hdns, ← hihl, hlen]

/-- What the parser does with a response that has questions and answers. -/
theorem answersStart_eq (hresponse : p.message.IsResponse) (hquestions : p.message.questions ≠ [])
    (fuel : ℕ) :
    answersStart p.reader p.headers.length p.dnsLen fuel =
      if p.message.answers = [] then .ok none
      else (questionName p.reader p.headers.length p.dnsLen fuel 12 [] >>= fun r =>
        if cString r.2 = [] then .ok none
        else (skipQuestions p.reader p.headers.length p.dnsLen fuel
            (p.message.questions.length - 1) r.1 >>= fun off =>
          .ok (some (off + 4, cString r.2, UInt16.ofNat p.message.answers.length)))) := by
  have hheader : p.reader.Holds p.headers.length p.message.header := p.holds_message.left
  have htwo : (2 : UInt32).toNat = 2 := rfl
  have hfour : (4 : UInt32).toNat = 4 := rfl
  have hsix : (6 : UInt32).toNat = 6 := rfl
  have hflags : field16 p.reader p.headers.length 2 = .ok p.message.flags :=
    field16_of_holds hheader.left.left.left.left.right (by omega)
  have hqd : field16 p.reader p.headers.length 4 =
      .ok (UInt16.ofNat p.message.questions.length) :=
    field16_of_holds hheader.left.left.left.right (by omega)
  have han : field16 p.reader p.headers.length 6 = .ok (UInt16.ofNat p.message.answers.length) :=
    field16_of_holds hheader.left.left.right (by omega)
  have hcount {n : ℕ} (h : n < 2 ^ 16) : (UInt16.ofNat n).toNat = n := by
    rw [UInt16.toNat_ofNat', Nat.mod_eq_of_lt h]
  have hzero {α : Type} {l : List α} (h : l.length < 2 ^ 16) :
      UInt16.ofNat l.length = 0 ↔ l = [] := by
    rw [← UInt16.toNat_inj, hcount h]
    exact List.length_eq_zero_iff
  rw [answersStart, hflags, hqd, han]
  simp only [bind, Except.bind, hzero p.message.answers_lt, hzero p.message.questions_lt,
    hcount p.message.questions_lt]
  have hflag : ¬p.message.flags &&& 0x8000 = 0 := hresponse
  by_cases hanswers : p.message.answers = []
  · rw [if_pos (.inr (.inl hanswers)), if_pos hanswers]
  · rw [if_neg fun h => h.elim hflag fun h => h.elim hanswers hquestions, if_neg hanswers]

/-! ### Names of any length -/

/-- The parser reads a single question right: its loop over the name ends behind the name, and the
insertions are the addresses of the message for the first 79 characters of the name. -/
def ReadsName (q : Question) : Prop :=
  (∃ r qname, questionName p.reader p.headers.length p.dnsLen (p.bytes.length + 1) 12 [] =
      .ok (r, qname) ∧ r.toNat = 12 + q.name.wire.length) ∧
    dnsParse p.reader p.len = .ok (p.message.answers.filterMap
      (recordAnswer ((dotted q.name.labels).take 79)))

/-- No record of the message has an address. -/
def NoAddress : Prop := ∀ r ∈ p.message.answers, ¬(r.type = 1 ∧ r.rdata.length = 4)

/-- The name of the insertions can be told from them, if there are any. -/
theorem filterMap_recordAnswer_eq_iff (rs : List Record) (a b : Bytes) :
    rs.filterMap (recordAnswer a) = rs.filterMap (recordAnswer b) ↔
      (∀ r ∈ rs, ¬(r.type = 1 ∧ r.rdata.length = 4)) ∨ a = b := by
  constructor
  · intro h
    by_contra hneither
    obtain ⟨haddress, hne⟩ := not_or.mp hneither
    simp only [not_forall, not_not] at haddress
    obtain ⟨r, hr, haddress⟩ := haddress
    have hmem : (⟨addressOf r.rdata, a, r.ttl⟩ : DnsAnswer) ∈ rs.filterMap (recordAnswer a) :=
      List.mem_filterMap.mpr ⟨r, hr, if_pos haddress⟩
    rw [h] at hmem
    obtain ⟨r', -, hr'⟩ := List.mem_filterMap.mp hmem
    rw [recordAnswer] at hr'
    split at hr'
    case isFalse => cases hr'
    case isTrue => exact hne (congrArg DnsAnswer.name (Option.some.inj hr')).symm
  · rintro (hnone | rfl)
    · refine List.filterMap_congr fun r hr => ?_
      rw [recordAnswer, recordAnswer, if_neg (hnone r hr), if_neg (hnone r hr)]
    · rfl

variable {p}

/-- The questions stand behind the header, and the answers behind the questions. -/
theorem holds_questions : p.reader.Holds (p.headers.length + 12) p.message.questionsWire :=
  p.holds_message.right.left

theorem holds_answers : p.reader.Holds (p.headers.length + (12 + p.message.questionsWire.length))
    (recordsWire p.message.answers) :=
  p.holds_message.right.right.left.of_eq (by rw [p.length_header, add_assoc])

theorem length_sections_le : 12 + p.message.questionsWire.length +
    (recordsWire p.message.answers).length ≤ p.dnsLen.toNat := by
  rw [p.toNat_dnsLen, Message.wire, List.length_append, List.length_append, List.length_append,
    p.length_header]
  omega

/-- The first question name. -/
theorem exists_questionName {q : Question} {qs : List Question}
    (hq : p.message.questions = q :: qs) :
    ∃ r : UInt32, questionName p.reader p.headers.length p.dnsLen (p.bytes.length + 1) 12 [] =
        .ok (r, (dotted q.name.labels).take 79) ∧
      (r.toNat = 12 + q.name.wire.length ↔ Passes ((dotted q.name.labels).drop 79)) := by
  have htwelve : (12 : UInt32).toNat = 12 := rfl
  have hsections := p.length_sections_le
  have hbytes : p.bytes.length = p.headers.length + p.message.wire.length := List.length_append
  have hsplit : p.message.questionsWire = q.wire ++ qs.flatMap Question.wire := by
    rw [Message.questionsWire, hq, List.flatMap_cons]
  have hname : q.name.wire.length = (labelsWire q.name.labels).length + 1 := List.length_append
  have hwire : q.wire.length = q.name.wire.length + 4 := List.length_append
  have hhold := p.holds_questions
  rw [hsplit] at hhold hsections
  rw [List.length_append] at hsections
  have hdns := p.toNat_dnsLen
  obtain ⟨r, hr, hiff⟩ : ∃ r : UInt32,
      questionName p.reader p.headers.length p.dnsLen (p.bytes.length + 1) 12 [] =
        .ok (r, (extendName [] q.name.labels).take 79) ∧
      (r.toNat = (12 : UInt32).toNat + (labelsWire q.name.labels).length + 1 ↔
        Passes ((extendName [] q.name.labels).drop 79)) :=
    questionName_wire q.name.labels (Nat.zero_le _) (hhold.left.left.of_eq (by rw [htwelve]))
      (by omega) (by omega)
  refine ⟨r, hr, ?_⟩
  rw [htwelve, add_assoc, ← hname] at hiff
  exact hiff

/-- What the parser inserts for a single question, when its loop finds the end of the name. -/
theorem dnsParse_single (hresponse : p.message.IsResponse) {q : Question}
    (hq : p.message.questions = [q]) (hpasses : Passes ((dotted q.name.labels).drop 79)) :
    dnsParse p.reader p.len =
      .ok (if cString ((dotted q.name.labels).take 79) = [] then []
        else p.message.answers.filterMap
          (recordAnswer (cString ((dotted q.name.labels).take 79)))) := by
  obtain ⟨r, hr, hiff⟩ := p.exists_questionName hq
  have hto := hiff.mpr hpasses
  have hsections := p.length_sections_le
  have hlt := p.dnsLen.toNat_lt
  have hquestions : p.message.questionsWire.length = q.name.wire.length + 4 := by
    rw [Message.questionsWire, hq, List.flatMap_cons, List.flatMap_nil, List.append_nil]
    exact List.length_append
  rw [p.dnsParse_eq, dnsParseMessage_eq, p.answersStart_eq hresponse (by rw [hq]; simp), hr, hq]
  by_cases hanswers : p.message.answers = []
  · rw [if_pos hanswers, hanswers]
    split <;> rfl
  · rw [if_neg hanswers]
    simp only [bind, Except.bind]
    by_cases hname : cString ((dotted q.name.labels).take 79) = []
    · rw [if_pos hname, if_pos hname]
      rfl
    · have hstart : (r + 4).toNat = 12 + p.message.questionsWire.length := by
        rw [toNat_add_of_lt (k := 4) rfl (by omega)]
        omega
      have hcount : (UInt16.ofNat p.message.answers.length).toNat = p.message.answers.length := by
        rw [UInt16.toNat_ofNat', Nat.mod_eq_of_lt p.message.answers_lt]
      have hbytes : p.bytes.length = p.headers.length + p.message.wire.length := List.length_append
      have hdns := p.toNat_dnsLen
      have hskip : skipQuestions p.reader p.headers.length p.dnsLen (p.bytes.length + 1) (1 - 1) r =
          .ok r := rfl
      rw [if_neg hname, if_neg hname, List.length_singleton, hskip]
      dsimp only [Option.elim_some]
      rw [hcount]
      exact answerRecords_wire (by omega) _ _ (by rw [hstart]; exact p.holds_answers)
        (by omega)

/-- **Names of any length.** A response with a single question is read right if and only if, behind
the first 79 characters of the name, no byte is zero and none but the last is taken for a pointer,
and, if the message has an address at all, the first 79 characters are not empty and hold no zero
byte. -/
theorem readsName_iff (hresponse : p.message.IsResponse) {q : Question}
    (hq : p.message.questions = [q]) :
    p.ReadsName q ↔ Passes ((dotted q.name.labels).drop 79) ∧
      (p.NoAddress ∨ (dotted q.name.labels).take 79 ≠ [] ∧ 0 ∉ (dotted q.name.labels).take 79) := by
  obtain ⟨r, hr, hiff⟩ := p.exists_questionName hq
  have hloop : (∃ r qname, questionName p.reader p.headers.length p.dnsLen (p.bytes.length + 1) 12
      [] = .ok (r, qname) ∧ r.toNat = 12 + q.name.wire.length) ↔
        Passes ((dotted q.name.labels).drop 79) := by
    rw [← hiff]
    constructor
    · rintro ⟨r', qname, hr', hto⟩
      rw [hr] at hr'
      rwa [(Prod.mk.inj (Except.ok.inj hr')).1]
    · exact fun hto => ⟨r, _, hr, hto⟩
  rw [ReadsName, hloop]
  refine and_congr_right fun hpasses => ?_
  rw [dnsParse_single hresponse hq hpasses]
  generalize (dotted q.name.labels).take 79 = name
  have hself : cString name = name ↔ 0 ∉ name :=
    ⟨fun h => h ▸ zero_notMem_cString name, cString_of_notMem⟩
  rw [Except.ok.injEq]
  by_cases hname : cString name = []
  · -- the array holds no name, and nothing is inserted
    have hbad : ¬(name ≠ [] ∧ 0 ∉ name) := fun h => h.1 ((hself.mpr h.2).symm.trans hname)
    rw [if_pos hname, or_iff_left hbad, eq_comm, List.filterMap_eq_nil_iff]
    refine forall₂_congr fun r hr => ?_
    rw [recordAnswer]
    split
    case isTrue haddress => exact iff_of_false (by simp) (not_not.mpr haddress)
    case isFalse haddress => exact iff_of_true rfl haddress
  · have hne : name ≠ [] := by
      rintro rfl
      exact hname rfl
    rw [if_neg hname, filterMap_recordAnswer_eq_iff, hself, and_iff_right hne, NoAddress]

/-- A letter of two bytes behind the first 79 characters is taken for a pointer. -/
theorem accentedName_misread : ∃ p : DnsPacket, p.message.IsResponse ∧
    ∃ q, p.message.questions = [q] ∧ ¬p.ReadsName q := by
  have hq : (packetOf (response [accentedName] (by decide)) (by decide +kernel)).message.questions =
    [⟨accentedName, 1, 1⟩] := by rfl
  refine ⟨_, ?_, _, hq, fun h => ?_⟩
  · rw [Message.IsResponse]
    decide
  · obtain ⟨⟨r, qname, hr, hto⟩, -⟩ := h
    obtain ⟨r', hr', hiff⟩ := exists_questionName hq
    rw [hr'] at hr
    obtain ⟨rfl, -⟩ := Prod.mk.inj (Except.ok.inj hr)
    have hpasses := hiff.mp hto
    revert hpasses
    decide +kernel

/-- A long name of letters only. -/
theorem readsName_plainName :
    (packetOf (response [plainName] (by decide)) (by decide +kernel)).ReadsName
      ⟨plainName, 1, 1⟩ := by
  refine (readsName_iff ?_ (by rfl)).mpr ⟨?_, .inr ⟨?_, ?_⟩⟩
  · rw [Message.IsResponse]
    decide
  · decide +kernel
  · decide +kernel
  · decide +kernel

/-! ### Question sections of any size -/

variable (p) in
/-- If the walk over the answer records starts at all, it starts at the end of the question
section. -/
def StartsAtEnd : Prop :=
  ∀ off qname n, answersStart p.reader p.headers.length p.dnsLen (p.bytes.length + 1) =
    .ok (some (off, qname, n)) → off.toNat = 12 + p.message.questionsWire.length

variable (p) in
/-- The question section behind the first name, but for its last four bytes. -/
def afterName (q : Question) : Bytes :=
  (p.message.questionsWire.drop q.name.wire.length).rdrop 4

/-- **Question sections of any size.** For a first name of at most 79 characters the walk over the
answer records starts at the end of the question section if and only if it does not start (there are
no answers, or the first name is empty), or the bytes behind the first name, but for the last four,
read as as many names, with four bytes behind each, as there are further questions. -/
theorem startsAtEnd_iff (hresponse : p.message.IsResponse) {q : Question} {qs : List Question}
    (hq : p.message.questions = q :: qs) (hshort : (dotted q.name.labels).length ≤ 79) :
    p.StartsAtEnd ↔ p.message.answers = [] ∨ cString (dotted q.name.labels) = [] ∨
      Misread qs.length (p.afterName q) := by
  obtain ⟨r, hr, hiff⟩ := p.exists_questionName hq
  rw [List.take_of_length_le hshort] at hr
  rw [List.drop_of_length_le hshort] at hiff
  have hto := hiff.mpr trivial
  have hstart := p.answersStart_eq hresponse (by rw [hq]; simp) (p.bytes.length + 1)
  rw [hr, hq] at hstart
  simp only [bind, Except.bind] at hstart
  by_cases hanswers : p.message.answers = []
  · rw [if_pos hanswers] at hstart
    refine iff_of_true (fun off qname n h => ?_) (.inl hanswers)
    rw [hstart] at h
    cases h
  · rw [if_neg hanswers] at hstart
    by_cases hname : cString (dotted q.name.labels) = []
    · rw [if_pos hname] at hstart
      refine iff_of_true (fun off qname n h => ?_) (.inr (.inl hname))
      rw [hstart] at h
      cases h
    · rw [if_neg hname] at hstart
      rw [or_iff_right hanswers, or_iff_right hname]
      have hcovers : p.reader.Covers p.bytes.length := captureReader_covers _ _
      have hfits := p.fits
      have hmin := p.min
      have hdns := p.toNat_dnsLen
      have hsections := p.length_sections_le
      have hbytes : p.bytes.length = p.headers.length + p.message.wire.length := List.length_append
      obtain ⟨s, hs, hmax⟩ : ∃ s, skipQuestions p.reader p.headers.length p.dnsLen
          (p.bytes.length + 1) qs.length r = .ok s ∧
            s.toNat ≤ max r.toNat (p.dnsLen.toNat + 195) :=
        exists_skipQuestions hcovers (by omega) (by omega) (by omega) qs.length r
      rw [List.length_cons, Nat.add_sub_cancel, hs] at hstart
      -- the section behind the first name
      have hsplit : p.message.questionsWire = q.name.wire ++
          (word16 q.qtype ++ word16 q.qclass ++ qs.flatMap Question.wire) := by
        rw [Message.questionsWire, hq, List.flatMap_cons, Question.wire, List.append_assoc]
      have hhold := p.holds_questions
      rw [hsplit] at hhold
      rw [afterName, hsplit, List.drop_left]
      have hsize : (word16 q.qtype ++ word16 q.qclass ++ qs.flatMap Question.wire).length =
          4 + (qs.flatMap Question.wire).length := List.length_append
      have hwire : p.message.questionsWire.length = q.name.wire.length +
          (word16 q.qtype ++ word16 q.qclass ++ qs.flatMap Question.wire).length := by
        rw [hsplit, List.length_append]
      generalize word16 q.qtype ++ word16 q.qclass ++ qs.flatMap Question.wire = tail
        at hhold hsize hwire
      have hbehind : p.reader.Holds (p.headers.length + r.toNat) (tail.rdrop 4) := by
        have hright := hhold.right
        rw [← List.take_append_drop (tail.length - 4) tail] at hright
        exact hright.left.of_eq (by omega)
      have hrdrop : (tail.rdrop 4).length = tail.length - 4 := by
        rw [List.rdrop, List.length_take]
        omega
      have hend := skipQuestions_iff (by omega) (by omega) hbehind (by omega) hs
      have hfour : (s + 4).toNat = s.toNat + 4 := toNat_add_of_lt rfl (by omega)
      rw [← hend]
      constructor
      · intro h
        have hat := h _ _ _ hstart
        omega
      · intro h off qname n hoff
        rw [hstart] at hoff
        obtain ⟨rfl, -⟩ := Prod.mk.inj (Option.some.inj (Except.ok.inj hoff))
        omega

/-- With query types below 256, two questions are right only if the second name is the root. -/
theorem misread_pair_iff {q q' : Question} (hq : p.message.questions = [q, q'])
    (htype : q.qtype < 256) : Misread 1 (p.afterName q) ↔ q'.name.labels = [] := by
  have hhigh : (q.qtype >>> 8).toUInt8 = 0 := by
    have hlt := UInt16.lt_iff_toNat_lt.mp htype
    have hmax : (256 : UInt16).toNat = 256 := rfl
    refine UInt8.toNat_inj.mp ?_
    simp only [UInt16.toNat_toUInt8, UInt16.toNat_shiftRight, Nat.shiftRight_eq_div_pow,
      UInt16.reduceToNat, Nat.reduceMod, UInt8.toNat_zero]
    omega
  have hafter : p.afterName q =
      0 :: (q.qtype.toUInt8 :: (word16 q.qclass ++ q'.name.wire)) := by
    have hsection : p.message.questionsWire.drop q.name.wire.length =
        (word16 q.qtype ++ word16 q.qclass ++ q'.name.wire) ++
          (word16 q'.qtype ++ word16 q'.qclass) := by
      rw [Message.questionsWire, hq, List.flatMap_cons, List.flatMap_cons, List.flatMap_nil,
        List.append_nil, Question.wire, List.append_assoc, List.drop_left, Question.wire,
        List.append_assoc _ q'.name.wire]
    rw [afterName, hsection, List.rdrop, List.length_append]
    refine (List.take_left' rfl).trans ?_
    rw [word16, hhigh]
    rfl
  have hlen : (q.qtype.toUInt8 :: (word16 q.qclass ++ q'.name.wire)).length =
      3 + (labelsWire q'.name.labels ++ [0]).length := by
    rw [List.length_cons, List.length_append, Nat.add_right_comm]
    rfl
  rw [hafter, misread_zero_cons_iff, hlen, List.length_append]
  cases h : q'.name.labels with
  | nil => exact iff_of_true rfl rfl
  | cons l ls =>
    refine iff_of_false ?_ (List.cons_ne_nil l ls)
    rw [labelsWire_cons, List.length_append, Label.length_wire]
    simp
    omega

/-- The response to questions for `a` and `b`. -/
theorem two_questions_misread : ∃ p : DnsPacket, p.message.IsResponse ∧
    ∃ q qs, p.message.questions = q :: qs ∧ (dotted q.name.labels).length ≤ 79 ∧
      ¬p.StartsAtEnd := by
  let a : Name := ⟨[⟨text "a", by decide, by decide⟩], by decide⟩
  let b : Name := ⟨[⟨text "b", by decide, by decide⟩], by decide⟩
  refine ⟨packetOf (response [a, b] (by decide)) (by decide +kernel), ?_, ⟨a, 1, 1⟩,
    [⟨b, 1, 1⟩], by rfl, by decide, fun h => ?_⟩
  · rw [Message.IsResponse]
    decide
  · have hstart := h 24 (text "a") 1 (by decide +kernel)
    revert hstart
    decide +kernel

/-- A second question for the root is skipped right. -/
theorem startsAtEnd_root :
    (packetOf (response [⟨[⟨text "a", by decide, by decide⟩], by decide⟩, ⟨[], by decide⟩]
      (by decide)) (by decide +kernel)).StartsAtEnd := by
  refine (startsAtEnd_iff ?_ (by rfl) (by decide)).mpr (.inr (.inr ?_))
  · rw [Message.IsResponse]
    decide
  · exact misread_zero_cons_iff.mpr rfl

end DnsPacket

end NdpiObserve
