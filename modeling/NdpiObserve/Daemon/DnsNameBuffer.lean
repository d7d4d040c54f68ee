import NdpiObserve.Daemon.DnsQuestions
import NdpiObserve.Library.TwoRuns

/-!
# The array of the question name

The parser writes the question name into an array of 80 bytes on the stack. Here the array is
memory of its own, and a write outside it is a fault, like a read outside the packet. The parser
never writes outside the array and always ends the string in it, so it does the same as the parser
that grows a list.

## Main definitions

* `storeName`, `nameString`: a write to the array, and the string in it.
* `dnsParseInto`: the parser with the array.

## Main results

* `dnsParseInto_eq`: both parsers agree on every packet.
* `dnsParseInto_captured`: the parser with the array ends without a fault.
* `hugePacket_fault`: a packet of nearly `2 ^ 32` bytes on which it does not.
-/

namespace NdpiObserve

open Dns TwoRuns

/-! ### The parser with the array -/

/-- `sizeof(qname)`. -/
def qnameSize : ℕ := 80

/-- `qname[i] = b`. -/
def storeName (buf : ℕ → UInt8) (i : ℕ) (b : UInt8) : Except ReadFault (ℕ → UInt8) :=
  if i < qnameSize then .ok (Function.update buf i b) else .error (.outOfBounds i)

/-- The string in the array; without a zero byte it is read past the end of the array. -/
def nameString (buf : ℕ → UInt8) : Except ReadFault Bytes :=
  let b := (List.range qnameSize).map buf
  if 0 ∈ b then .ok (cString b) else .error (.outOfBounds qnameSize)

section Parser

variable (rd : Reader) (base : ℕ) (dnsLen : UInt32)

/-- The loop that copies a label with `n` bytes left into the array, from index `npos` on. -/
def copyLabelInto : ℕ → UInt32 → ℕ → (ℕ → UInt8) → Except ReadFault (UInt32 × ℕ × (ℕ → UInt8))
  | 0, off, npos, buf => .ok (off, npos, buf)
  | n + 1, off, npos, buf =>
    if off < dnsLen ∧ npos < qnameSize - 1 then do
      let b ← dnsAt rd base off
      let buf ← storeName buf npos b
      copyLabelInto n (off + 1) (npos + 1) buf
    else .ok (off, npos, buf)

/-- The loop over the labels of the first question name. -/
def questionNameInto : ℕ → UInt32 → ℕ → (ℕ → UInt8) →
    Except ReadFault (UInt32 × ℕ × (ℕ → UInt8))
  | 0, _, _, _ => .error .outOfFuel
  | fuel + 1, off, npos, buf =>
    if off < dnsLen then do
      let llen ← dnsAt rd base off
      let off := off + 1
      if llen = 0 then .ok (off, npos, buf)
      else if isPointer llen then .ok (off + 1, npos, buf)
      else do
        let dot ←
          if 0 < npos ∧ npos < qnameSize - 1 then do
            let buf ← storeName buf npos 46
            .ok (npos + 1, buf)
          else .ok (npos, buf)
        let r ← copyLabelInto rd base dnsLen llen.toNat off dot.1 dot.2
        questionNameInto fuel r.1 r.2.1 r.2.2
    else .ok (off, npos, buf)

/-- The parser after the DNS header. -/
def dnsParseMessageInto (fuel : ℕ) : Except ReadFault (List DnsAnswer) := do
  let flags ← field16 rd base 2
  let qdcount ← field16 rd base 4
  let ancount ← field16 rd base 6
  if flags &&& 0x8000 = 0 ∨ ancount = 0 ∨ qdcount = 0 then .ok []
  else do
    let r ← questionNameInto rd base dnsLen fuel 12 0 fun _ => 0
    let buf ← storeName r.2.2 r.2.1 0
    let qname ← nameString buf
    if qname = [] then .ok []
    else do
      let off ← skipQuestions rd base dnsLen fuel (qdcount.toNat - 1) r.1
      answerRecords rd base dnsLen fuel qname ancount.toNat (off + 4)

end Parser

/-- The parser with the array on a packet of `pktLen` bytes. -/
def dnsParseInto (rd : Reader) (pktLen : UInt32) : Except ReadFault (List DnsAnswer) :=
  if pktLen < 40 then .ok []
  else do
    let b ← rd 0
    let ihl : UInt8 := (b &&& 0xf) * 4
    if ihl < 20 ∨ pktLen < ihl.toUInt32 + 8 + 12 then .ok []
    else dnsParseMessageInto rd (ihl.toNat + 8) (pktLen - ihl.toUInt32 - 8) (pktLen.toNat + 1)

/-! ### The array and the list -/

/-- The array holds the bytes of the list up to its index, which leaves room for a zero byte. -/
structure Filled (npos : ℕ) (buf : ℕ → UInt8) (qname : Bytes) : Prop where
  npos_eq : npos = qname.length
  room : qname.length ≤ 79
  get : ∀ i (h : i < qname.length), buf i = qname[i]

namespace Filled

variable {npos : ℕ} {buf : ℕ → UInt8} {qname : Bytes}

theorem store (h : Filled npos buf qname) (hroom : npos < qnameSize - 1) (b : UInt8) :
    storeName buf npos b = .ok (Function.update buf npos b) ∧
      Filled (npos + 1) (Function.update buf npos b) (qname ++ [b]) := by
  have heq := h.npos_eq
  rw [qnameSize] at hroom
  refine ⟨if_pos (by rw [qnameSize]; omega), ?_, ?_, fun i hi => ?_⟩
  · rw [List.length_append, List.length_singleton, heq]
  · rw [List.length_append, List.length_singleton]
    omega
  · rw [List.length_append, List.length_singleton] at hi
    by_cases hlast : i = npos
    · subst hlast
      rw [Function.update_self, List.getElem_append_right heq.ge]
      simp
    · rw [Function.update_of_ne hlast, List.getElem_append_left (by omega)]
      exact h.get i (by omega)

/-- The string that is ended behind the bytes. -/
theorem nameString_eq (h : Filled npos buf qname) :
    storeName buf npos 0 = .ok (Function.update buf npos 0) ∧
      nameString (Function.update buf npos 0) = .ok (cString qname) := by
  have heq := h.npos_eq
  have hroom := h.room
  refine ⟨if_pos (by rw [qnameSize]; omega), ?_⟩
  have hlen : ((List.range qnameSize).map (Function.update buf npos 0)).length = 80 := by
    rw [List.length_map, List.length_range, qnameSize]
  have hbyte (i : ℕ) (hi : i < ((List.range qnameSize).map (Function.update buf npos 0)).length) :
      ((List.range qnameSize).map (Function.update buf npos 0))[i] =
        Function.update buf npos 0 i := by
    rw [List.getElem_map, List.getElem_range]
  rw [nameString]
  generalize (List.range qnameSize).map (Function.update buf npos 0) = b at hlen hbyte
  have htake : b.take npos = qname := by
    refine List.ext_getElem (by rw [List.length_take]; omega) fun i hi hi' => ?_
    rw [List.getElem_take, hbyte, Function.update_of_ne (by omega), h.get i hi']
  have hdrop : b.drop npos = 0 :: b.drop (npos + 1) := by
    rw [List.drop_eq_getElem_cons (by omega), hbyte, Function.update_self]
  have hsplit : b = qname ++ 0 :: b.drop (npos + 1) := by
    rw [← hdrop, ← htake, List.take_append_drop]
  have hstring : cString b = cString qname := by
    rw [hsplit, cString, cString, List.takeWhile_append]
    split
    case isTrue hall =>
      rw [List.takeWhile_cons_of_neg (by simp), List.append_nil]
      exact (List.takeWhile_prefix _).eq_of_length hall |>.symm
    case isFalse => rfl
  have hmem : 0 ∈ b := by
    rw [hsplit]
    simp
  rw [if_pos hmem, hstring]

end Filled

section Parser

variable (rd : Reader) (base : ℕ) (dnsLen : UInt32)

theorem copyLabelInto_lockstep (k : ℕ) (off : UInt32) {npos : ℕ} {buf : ℕ → UInt8}
    {qname : Bytes} (h : Filled npos buf qname) :
    Lockstep (fun r r' => r.1 = r'.1 ∧ Filled r.2.1 r.2.2 r'.2)
      (copyLabelInto rd base dnsLen k off npos buf) (copyLabel rd base dnsLen k off qname) := by
  induction k generalizing off npos buf qname with
  | zero => exact .ok ⟨rfl, h⟩
  | succ k ih =>
    have hroom : npos < qnameSize - 1 ↔ qname.length < 79 := by rw [h.npos_eq, qnameSize]
    rw [copyLabelInto, copyLabel]
    simp only [hroom]
    refine .ite (fun hin => ?_) fun _ => .ok ⟨rfl, h⟩
    refine (Lockstep.refl _).bind fun b b' hb => ?_
    obtain ⟨hstore, hfilled⟩ := h.store (hroom.mpr hin.2) b
    rw [← hb, hstore]
    exact ih _ hfilled

theorem questionNameInto_lockstep (fuel : ℕ) (off : UInt32) {npos : ℕ} {buf : ℕ → UInt8}
    {qname : Bytes} (h : Filled npos buf qname) :
    Lockstep (fun r r' => r.1 = r'.1 ∧ Filled r.2.1 r.2.2 r'.2)
      (questionNameInto rd base dnsLen fuel off npos buf)
      (questionName rd base dnsLen fuel off qname) := by
  induction fuel generalizing off npos buf qname with
  | zero => exact .error _
  | succ fuel ih =>
    have hdot : text "." = [46] := by decide +kernel
    have hroom : npos < qnameSize - 1 ↔ qname.length < 79 := by rw [h.npos_eq, qnameSize]
    have hpos : 0 < npos ↔ 0 < qname.length := by rw [h.npos_eq]
    rw [questionNameInto, questionName]
    refine .ite (fun hin => ?_) fun _ => .ok ⟨rfl, h⟩
    refine (Lockstep.refl _).bind fun llen llen' hllen => ?_
    rw [← hllen]
    refine .ite (fun _ => .ok ⟨rfl, h⟩) fun _ => .ite (fun _ => .ok ⟨rfl, h⟩) fun _ => ?_
    simp only [hroom, hpos]
    by_cases hadd : 0 < qname.length ∧ qname.length < 79
    · obtain ⟨hstore, hfilled⟩ := h.store (hroom.mpr hadd.2) 46
      rw [if_pos hadd, if_pos hadd, hstore, hdot]
      refine (copyLabelInto_lockstep rd base dnsLen _ _ hfilled).bind fun r r' hr => ?_
      rw [hr.1]
      exact ih _ hr.2
    · rw [if_neg hadd, if_neg hadd]
      refine (copyLabelInto_lockstep rd base dnsLen _ _ h).bind fun r r' hr => ?_
      rw [hr.1]
      exact ih _ hr.2

theorem dnsParseMessageInto_eq (fuel : ℕ) :
    dnsParseMessageInto rd base dnsLen fuel = dnsParseMessage rd base dnsLen fuel := by
  refine Lockstep.eq ?_
  refine (Lockstep.refl _).bind fun flags flags' hflags => (Lockstep.refl _).bind
    fun qdcount qdcount' hqd => (Lockstep.refl _).bind fun ancount ancount' han => ?_
  rw [hflags, hqd, han]
  refine .ite (fun _ => .refl _) fun _ => ?_
  have hempty : Filled 0 (fun _ => 0) [] := ⟨rfl, Nat.zero_le _, fun i hi => by cases hi⟩
  refine (questionNameInto_lockstep rd base dnsLen fuel 12 hempty).bind fun r r' hr => ?_
  obtain ⟨hstore, hstring⟩ := hr.2.nameString_eq
  rw [hstore, hr.1]
  simp only [bind, Except.bind, hstring]
  exact .refl _

end Parser

/-- **The array is large enough.** The parser with the array does what the parser with the list
does, on every packet and every reader. -/
theorem dnsParseInto_eq (rd : Reader) (pktLen : UInt32) :
    dnsParseInto rd pktLen = dnsParse rd pktLen := by
  rw [dnsParseInto, dnsParse]
  simp only [dnsParseMessageInto_eq]

/-- **The parser is safe.** For every packet of at most `2 ^ 32 - 182` bytes the parser ends, reads
the packet below its length only, writes below the size of the array only, and ends the string in
it: none of these is a fault. -/
theorem dnsParseInto_captured (mem : ℕ → UInt8) {n : UInt32} (h : n.toNat + 182 ≤ 2 ^ 32) :
    ∃ l, dnsParseInto (captureReader n.toNat mem) n = .ok l ∧
      dnsParse (captureReader n.toNat mem) n = .ok l := by
  obtain ⟨l, hl⟩ := exists_dnsParse_eq_ok (captureReader_covers n.toNat mem) h
  exact ⟨l, (dnsParseInto_eq _ _).trans hl, hl⟩

/-- A packet of 512 bytes, as many as are captured. -/
theorem dnsParseInto_captured_512 : (512 : UInt32).toNat + 182 ≤ 2 ^ 32 ∧
    ∃ l, dnsParseInto (captureReader (512 : UInt32).toNat fun _ => 191) 512 = .ok l ∧
      dnsParse (captureReader (512 : UInt32).toNat fun _ => 191) 512 = .ok l :=
  ⟨by decide, dnsParseInto_captured (fun _ => 191) (by decide)⟩

/-! ### Longer packets -/

section Parser

variable {rd : Reader} {base : ℕ} {dnsLen : UInt32}

/-- A walk over labels with the length 191, up to the first offset behind the message. -/
theorem skipName_labels {fuel m last : ℕ} {off : UInt32}
    (hread : ∀ o : UInt32, off.toNat ≤ o.toNat → o < dnsLen → dnsAt rd base o = .ok 191)
    (hlast : off.toNat + 192 * m = last) (hbehind : dnsLen.toNat ≤ last)
    (hfirst : last < dnsLen.toNat + 192) (hlt : last < 2 ^ 32) (hfuel : m < fuel) :
    skipName rd base dnsLen fuel off = .ok (UInt32.ofNat last) := by
  induction m generalizing fuel off with
  | zero =>
    obtain ⟨fuel, rfl⟩ : ∃ f, fuel = f + 1 := ⟨fuel - 1, by omega⟩
    have hout : ¬off < dnsLen := by
      rw [UInt32.lt_iff_toNat_lt]
      omega
    have hoff : off = UInt32.ofNat last := by
      rw [← hlast, Nat.mul_zero, Nat.add_zero, UInt32.ofNat_toNat]
    rw [skipName, if_neg hout, hoff]
  | succ m ih =>
    obtain ⟨fuel, rfl⟩ : ∃ f, fuel = f + 1 := ⟨fuel - 1, by omega⟩
    have hin : off < dnsLen := UInt32.lt_iff_toNat_lt.mpr (by omega)
    have hnext : (off + 192).toNat = off.toNat + 192 := toNat_add_of_lt rfl (by omega)
    have hrest := @ih fuel (off + 192)
      (fun o ho => hread o (by omega)) (by omega) (by omega)
    rw [skipName, if_pos hin, hread off le_rfl hin]
    exact hrest

/-- An IP header without options. -/
theorem dnsParse_of_first {n : UInt32} (hfirst : rd 0 = .ok 0x45) (hlen : ¬n < 40) :
    dnsParse rd n = dnsParseMessage rd 28 (n - 20 - 8) (n.toNat + 1) := by
  have hihl : ((0x45 : UInt8) &&& 0xf) * 4 = 20 := by decide
  have hroom : ¬((20 : UInt8) < 20 ∨ n < (20 : UInt8).toUInt32 + 8 + 12) := by
    rintro (h | h)
    · exact absurd h (by decide)
    · exact hlen h
  rw [dnsParse, if_neg hlen, hfirst]
  simp only [bind, Except.bind, hihl, if_neg hroom]
  rfl

/-- The parser gets to the records. -/
theorem dnsParseMessage_of_ok {fuel : ℕ} {flags qdcount ancount : UInt16} {r : UInt32 × Bytes}
    {off : UInt32} (hflags : field16 rd base 2 = .ok flags)
    (hqd : field16 rd base 4 = .ok qdcount) (han : field16 rd base 6 = .ok ancount)
    (hresponse : ¬(flags &&& 0x8000 = 0 ∨ ancount = 0 ∨ qdcount = 0))
    (hname : questionName rd base dnsLen fuel 12 [] = .ok r) (hne : ¬cString r.2 = [])
    (hskip : skipQuestions rd base dnsLen fuel (qdcount.toNat - 1) r.1 = .ok off) :
    dnsParseMessage rd base dnsLen fuel =
      answerRecords rd base dnsLen fuel (cString r.2) ancount.toNat (off + 4) := by
  rw [dnsParseMessage, hflags, hqd, han]
  simp only [bind, Except.bind]
  rw [if_neg hresponse, hname]
  dsimp only
  rw [if_neg hne, hskip]

end Parser

/-- The question name is one label of 32 letters, and there is a second question. -/
def hugeHeader : Bytes :=
  [0x45] ++ List.replicate 27 0 ++ [0, 0, 0x81, 0x80, 0, 2, 0, 1, 0, 0, 0, 0] ++
    [32] ++ List.replicate 32 97 ++ [0]

/-- Behind the first name all bytes are 191. -/
def hugePacket (i : ℕ) : UInt8 := hugeHeader.getD i 191

/-- **The bound is sharp.** In a packet of `2 ^ 32 - 181` bytes an offset can reach the last ten
numbers of 32 bits; ten more are a small offset again, and the parser reads a record far behind the
packet. -/
theorem hugePacket_fault : ¬ ∀ (mem : ℕ → UInt8) (n : UInt32),
    ∃ l, dnsParseInto (captureReader n.toNat mem) n = .ok l := by
  intro h
  obtain ⟨l, hl⟩ := h hugePacket 4294967115
  rw [dnsParseInto_eq] at hl
  have hn : (4294967115 : UInt32).toNat = 4294967115 := rfl
  generalize hrd : captureReader (4294967115 : UInt32).toNat hugePacket = rd at hl
  have hin (i : ℕ) (hi : i < 4294967115) : rd i = .ok (hugePacket i) := by
    rw [← hrd, captureReader, hn, if_pos hi]
  have hfirst : rd 0 = .ok 0x45 := hin 0 (by decide)
  have hdns : (4294967115 : UInt32) - 20 - 8 = 4294967087 := by decide
  rw [dnsParse_of_first hfirst (by decide), hn, hdns] at hl
  have hlen : (4294967087 : UInt32).toNat = 4294967087 := rfl
  generalize hfuel : 4294967115 + 1 = fuel at hl
  have hfield {off : UInt32} {a b : UInt8} (hoff : off.toNat + 30 < 4294967115)
      (ha : hugePacket (28 + off.toNat) = a) (hb : hugePacket (28 + off.toNat + 1) = b) :
      field16 rd 28 off = .ok (be16 a b) := by
    have hone : (off + 1).toNat = off.toNat + 1 := toNat_add_of_lt rfl (by omega)
    rw [field16, dnsAt, dnsAt, hone, hin _ (by omega), ← add_assoc, hin _ (by omega), ha, hb]
    rfl
  have hflags : field16 rd 28 2 = .ok 0x8180 := hfield (by decide) rfl rfl
  have hqd : field16 rd 28 4 = .ok 2 := hfield (by decide) rfl rfl
  have han : field16 rd 28 6 = .ok 1 := hfield (by decide) rfl rfl
  -- the first question name
  let a : Label := ⟨List.replicate 32 97, by decide, by decide⟩
  have hhold : rd.Holds (28 + (12 : UInt32).toNat) (labelsWire [a] ++ [0]) := by
    rw [← hrd]
    exact captureReader_holds (by decide) (by decide)
  obtain ⟨r, hr, hto⟩ : ∃ r : UInt32,
      questionName rd 28 4294967087 fuel 12 [] = .ok (r, (extendName [] [a]).take 79) ∧
        (r.toNat = 46 ↔ Passes ((extendName [] [a]).drop 79)) :=
    questionName_wire [a] (Nat.zero_le _) hhold (by decide) (by rw [← hfuel]; decide)
  obtain rfl : r = 46 := UInt32.toNat_inj.mp (hto.mpr trivial)
  have hstring : ¬cString ((extendName [] [a]).take 79) = [] := by decide +kernel
  -- the second one is passed 191 bytes behind the last byte of the packet
  have h46 : (46 : UInt32).toNat = 46 := rfl
  have hread (o : UInt32) (hlow : 46 ≤ o.toNat) (ho : o < 4294967087) :
      dnsAt rd 28 o = .ok 191 := by
    have hlt := UInt32.lt_iff_toNat_lt.mp ho
    have hlong : hugeHeader.length ≤ 28 + o.toNat := by
      have hheader : hugeHeader.length = 74 := rfl
      omega
    rw [dnsAt, hin _ (by omega), hugePacket, List.getD_eq_default _ _ hlong]
  have hname : skipName rd 28 4294967087 fuel 46 = .ok (UInt32.ofNat 4294967278) :=
    skipName_labels (m := 22369621) (by rwa [h46]) (by rw [h46]) (by omega) (by omega) (by decide)
      (by omega)
  have hskip : skipQuestions rd 28 4294967087 fuel ((2 : UInt16).toNat - 1) 46 =
      .ok 4294967282 := by
    have hcount : (2 : UInt16).toNat - 1 = 1 := rfl
    rw [hcount, skipQuestions, if_pos (by decide), hname]
    exact congrArg Except.ok (by decide)
  -- the record starts there
  have hbehind : skipOwner rd 28 4294967087 fuel 4294967286 = .ok 4294967286 := by
    rw [skipOwner, if_neg (by decide), ← hfuel, skipName, if_neg (by decide)]
  have hrecord : field16 rd 28 4294967286 = .error (.outOfBounds 4294967314) := by
    rw [field16, dnsAt, ← hrd, captureReader, hn, if_neg (by decide)]
    rfl
  have hanswers (qname : Bytes) : answerRecords rd 28 4294967087 fuel qname (1 : UInt16).toNat
      (4294967282 + 4) = .error (.outOfBounds 4294967314) := by
    have hcount : (1 : UInt16).toNat = 1 := rfl
    have hstart : (4294967282 : UInt32) + 4 = 4294967286 := by decide
    rw [hcount, hstart, answerRecords, if_pos (by decide), hbehind]
    simp only [bind, Except.bind]
    rw [if_neg (by decide), hrecord]
  rw [dnsParseMessage_of_ok hflags hqd han (by decide) hr hstring hskip, hanswers] at hl
  cases hl

end NdpiObserve
