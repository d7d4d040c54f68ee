import NdpiObserve.Library.Numerals

/-!
# HTTP messages

A message in the format of HTTP/1.1 whose body has the length that the field `Content-Length`
announces: a start line and header fields, each ended by a carriage return and a line feed, an
empty line, and the body. The reader takes the first message of what has arrived and leaves
everything behind it alone, so it needs no other sign of where the body ends, and it does not take
a message of which a part is still missing.

## Main definitions

* `HttpMessages.Field`, `HttpMessages.writeHead`: header fields, and the head of a message.
* `HttpMessages.readMessage`: the first message of a text.

## Main results

* `HttpMessages.readMessage_writeHead`: a written message is read back, whatever its body holds
  and whatever follows it.
* `HttpMessages.readMessage_of_prefix`: a message that is cut off is not read.
-/

namespace HttpMessages

abbrev Text := List UInt8

/-! ### The format -/

/-- The end of a line. -/
def crlf : Text := [13, 10]

/-- A header field that is written on one line. -/
structure Field where
  name : Text
  value : Text
  name_ne_nil : name ≠ []
  colon_notMem_name : 58 ∉ name
  cr_notMem_name : 13 ∉ name
  cr_notMem_value : 13 ∉ value
  head?_value_ne : value.head? ≠ some 32

/-- The line of a field. -/
def Field.write (f : Field) : Text := f.name ++ 58 :: 32 :: f.value

/-- Lines with their ends, and the empty line behind them. -/
def writeLines (lines : List Text) : Text := (lines.flatMap fun l => l ++ crlf) ++ crlf

/-- The head of a message. -/
def writeHead (start : Text) (fields : List Field) : Text :=
  writeLines (start :: fields.map Field.write)

/-! ### The reader -/

/-- The first line, and what is behind it. -/
def readLine : Text → Option (Text × Text)
  | [] => none
  | b :: rest =>
    if b = 13 ∧ rest.head? = some 10 then some ([], rest.tail)
    else (readLine rest).map fun r => (b :: r.1, r.2)

/-- The lines up to an empty one, and what is behind it. -/
def readLines : ℕ → Text → Option (List Text × Text)
  | 0, _ => none
  | fuel + 1, s =>
    match readLine s with
    | none => none
    | some (l, rest) =>
      if l = [] then some ([], rest)
      else (readLines fuel rest).map fun r => (l :: r.1, r.2)

/-- The name and the value of a field. -/
def readField (l : Text) : Option (Text × Text) :=
  if 58 ∈ l then
    some (l.takeWhile (· ≠ 58), (l.dropWhile (· ≠ 58)).tail.dropWhile (· = 32))
  else none

/-- A letter in lower case. -/
def lower (b : UInt8) : UInt8 := if 65 ≤ b ∧ b ≤ 90 then b + 32 else b

/-- The length of the body; `name` is the field's name in lower case. -/
def bodyLength (name : Text) (fields : List (Text × Text)) : Option ℕ :=
  match fields.find? fun f => f.1.map lower = name with
  | none => none
  | some f => if f.2 ≠ [] ∧ f.2.all Numerals.isDigit then some (Numerals.value f.2) else none

/-- What a reader gets: the start line, the fields and the body. -/
structure Message where
  start : Text
  fields : List (Text × Text)
  body : Text
deriving DecidableEq

/-- `content-length` -/
def contentLength : Text :=
  [99, 111, 110, 116, 101, 110, 116, 45, 108, 101, 110, 103, 116, 104]

/-- The first message of a text. -/
def readMessage (s : Text) : Option Message :=
  match readLines (s.length + 1) s with
  | none => none
  | some ([], _) => none
  | some (start :: lines, rest) =>
    match lines.mapM readField with
    | none => none
    | some fields =>
      match bodyLength contentLength fields with
      | none => none
      | some n => if n ≤ rest.length then some ⟨start, fields, rest.take n⟩ else none

/-! ### Lines -/

theorem readLine_append {l : Text} (hl : 13 ∉ l) (rest : Text) :
    readLine (l ++ (crlf ++ rest)) = some (l, rest) := by
  induction l with
  | nil => rfl
  | cons b l ih =>
    rw [List.mem_cons, not_or] at hl
    rw [List.cons_append, readLine, if_neg fun h => hl.1 h.1.symm, ih hl.2, Option.map_some]

theorem writeLines_cons (l : Text) (lines : List Text) :
    writeLines (l :: lines) = l ++ (crlf ++ writeLines lines) := by
  rw [writeLines, List.flatMap_cons, writeLines, List.append_assoc, List.append_assoc]

theorem length_lt_writeLines (lines : List Text) : lines.length < (writeLines lines).length := by
  induction lines with
  | nil => exact Nat.zero_lt_two
  | cons l lines ih =>
    have hcrlf : crlf.length = 2 := rfl
    rw [writeLines_cons, List.length_append, List.length_append, List.length_cons]
    omega

/-- Lines that are written are read back. -/
theorem readLines_writeLines {lines : List Text} (hlines : ∀ l ∈ lines, l ≠ [] ∧ 13 ∉ l)
    {fuel : ℕ} (hfuel : lines.length < fuel) (rest : Text) :
    readLines fuel (writeLines lines ++ rest) = some (lines, rest) := by
  induction lines generalizing fuel with
  | nil =>
    obtain ⟨fuel, rfl⟩ := Nat.exists_eq_succ_of_ne_zero (Nat.ne_zero_of_lt hfuel)
    rfl
  | cons l lines ih =>
    obtain ⟨fuel, rfl⟩ := Nat.exists_eq_succ_of_ne_zero (Nat.ne_zero_of_lt hfuel)
    obtain ⟨⟨hne, hcr⟩, hlines⟩ := List.forall_mem_cons.mp hlines
    rw [writeLines_cons, List.append_assoc, List.append_assoc, readLines, readLine_append hcr]
    dsimp only
    rw [if_neg hne, ih hlines (Nat.lt_of_succ_lt_succ hfuel), Option.map_some]

/-- What has been read of a text does not change when more of it arrives. -/
theorem readLine_append_right {s l rest : Text} (h : readLine s = some (l, rest)) (t : Text) :
    readLine (s ++ t) = some (l, rest ++ t) := by
  induction s generalizing l with
  | nil => cases h
  | cons b s ih =>
    rw [readLine] at h
    rw [List.cons_append, readLine]
    split at h
    case isTrue hend =>
      obtain ⟨rfl, rfl⟩ := Prod.mk.inj (Option.some.inj h)
      cases s with
      | nil => cases hend.2
      | cons c s =>
        rw [List.head?_cons] at hend
        rw [List.cons_append, List.head?_cons, if_pos hend, List.tail_cons, List.tail_cons]
    case isFalse hend =>
      cases s with
      | nil => cases h
      | cons c s =>
        obtain ⟨⟨l', rest'⟩, hread, heq⟩ := Option.map_eq_some_iff.mp h
        obtain ⟨rfl, rfl⟩ := Prod.mk.inj heq
        rw [List.head?_cons] at hend
        rw [ih hread, List.cons_append, List.head?_cons, if_neg hend, Option.map_some]

theorem readLines_append_right {fuel fuel' : ℕ} (hfuel : fuel ≤ fuel') {s rest : Text}
    {lines : List Text} (h : readLines fuel s = some (lines, rest)) (t : Text) :
    readLines fuel' (s ++ t) = some (lines, rest ++ t) := by
  induction fuel generalizing fuel' s lines with
  | zero => cases h
  | succ fuel ih =>
    obtain ⟨fuel', rfl⟩ := Nat.exists_eq_add_of_le' hfuel
    rw [readLines] at h
    cases hread : readLine s with
    | none =>
      rw [hread] at h
      cases h
    | some r =>
      obtain ⟨l, rest'⟩ := r
      rw [hread] at h
      show readLines (fuel' + fuel + 1) (s ++ t) = _
      rw [readLines, readLine_append_right hread t]
      dsimp only at h ⊢
      split at h
      case isTrue hl =>
        obtain ⟨rfl, rfl⟩ := Prod.mk.inj (Option.some.inj h)
        rw [if_pos hl]
      case isFalse hl =>
        obtain ⟨⟨lines', rest''⟩, hlines, heq⟩ := Option.map_eq_some_iff.mp h
        obtain ⟨rfl, rfl⟩ := Prod.mk.inj heq
        rw [if_neg hl, ih (Nat.le_add_left fuel fuel') hlines, Option.map_some]

/-! ### Fields -/

theorem Field.write_ne_nil (f : Field) : f.write ≠ [] := by simp [write]

theorem Field.cr_notMem_write (f : Field) : 13 ∉ f.write := by
  rw [write, List.mem_append, List.mem_cons, List.mem_cons]
  rintro (h | h | h | h)
  · exact f.cr_notMem_name h
  · exact absurd h (by decide)
  · exact absurd h (by decide)
  · exact f.cr_notMem_value h

/-- A written field is read back. -/
theorem readField_write (f : Field) : readField f.write = some (f.name, f.value) := by
  have hname : ∀ b ∈ f.name, (decide (b ≠ 58)) = true := fun b hb =>
    decide_eq_true fun h => f.colon_notMem_name (h ▸ hb)
  have hvalue : f.value.dropWhile (· = 32) = f.value := by
    have hhead := f.head?_value_ne
    cases hv : f.value with
    | nil => rfl
    | cons b v =>
      rw [hv] at hhead
      exact List.dropWhile_cons_of_neg (by simpa using hhead)
  rw [readField, if_pos (by simp [Field.write]), Field.write,
    List.takeWhile_append_of_pos hname, List.takeWhile_cons_of_neg (by decide),
    List.append_nil, List.dropWhile_append_of_pos hname, List.dropWhile_cons_of_neg (by decide),
    List.tail_cons, List.dropWhile_cons_of_pos (by decide), hvalue]

theorem mapM_readField (fields : List Field) : (fields.map Field.write).mapM readField =
    some (fields.map fun f => (f.name, f.value)) := by
  induction fields with
  | nil => rfl
  | cons f fields ih =>
    rw [List.map_cons, List.mapM_cons, readField_write, ih]
    rfl

/-! ### Messages -/

/-- What it takes to read a message. -/
theorem readMessage_eq_some {s : Text} {m : Message} (h : readMessage s = some m) :
    ∃ lines rest n, readLines (s.length + 1) s = some (m.start :: lines, rest) ∧
      lines.mapM readField = some m.fields ∧ bodyLength contentLength m.fields = some n ∧
      n ≤ rest.length ∧ m.body = rest.take n := by
  rw [readMessage] at h
  split at h
  · cases h
  · cases h
  · rename_i start lines rest hlines
    split at h
    · cases h
    · rename_i fields hfields
      split at h
      · cases h
      · rename_i n hn
        split at h
        case isTrue hle =>
          rw [← Option.some.inj h]
          exact ⟨lines, rest, n, hlines, hfields, hn, hle, rfl⟩
        case isFalse => cases h

section Write

variable {start : Text} (hstart : start ≠ [] ∧ 13 ∉ start) {fields : List Field} {body : Text}
  (hbody : bodyLength contentLength (fields.map fun f => (f.name, f.value)) = some body.length)

include hstart in
theorem readLines_writeHead (rest : Text) :
    readLines ((writeHead start fields ++ rest).length + 1) (writeHead start fields ++ rest) =
      some (start :: fields.map Field.write, rest) := by
  refine readLines_writeLines (List.forall_mem_cons.mpr ⟨hstart, fun l hl => ?_⟩) ?_ rest
  · obtain ⟨f, -, rfl⟩ := List.mem_map.mp hl
    exact ⟨f.write_ne_nil, f.cr_notMem_write⟩
  · have hlt := length_lt_writeLines (start :: fields.map Field.write)
    rw [writeHead, List.length_append]
    omega

include hstart hbody

/-- **Reading a written message.** The start line, the fields and the body are read back, whatever
the body holds and whatever follows it. -/
theorem readMessage_writeHead (behind : Text) :
    readMessage (writeHead start fields ++ (body ++ behind)) =
      some ⟨start, fields.map fun f => (f.name, f.value), body⟩ := by
  rw [readMessage, readLines_writeHead hstart]
  dsimp only
  rw [mapM_readField]
  dsimp only
  rw [hbody]
  dsimp only
  rw [if_pos (by rw [List.length_append]; exact Nat.le_add_right _ _), List.take_left]

/-- **A message that is cut off.** No part of a message from its start is read. -/
theorem readMessage_of_prefix {s : Text} (hs : s <+: writeHead start fields ++ body)
    (hne : s ≠ writeHead start fields ++ body) : readMessage s = none := by
  rw [← Option.not_isSome_iff_eq_none, Option.isSome_iff_exists]
  rintro ⟨m, hm⟩
  obtain ⟨lines, rest, n, hlines, hfields, hn, hle, -⟩ := readMessage_eq_some hm
  obtain ⟨t, ht⟩ := hs
  -- the rest of the message leaves the lines that were read as they are
  have hfuel : s.length + 1 ≤ (writeHead start fields ++ body).length + 1 := by
    rw [← ht, List.length_append]
    omega
  have hmore := readLines_append_right hfuel hlines t
  rw [ht, readLines_writeHead hstart] at hmore
  obtain ⟨hhead, hrest⟩ := Prod.mk.inj (Option.some.inj hmore)
  rw [← (List.cons.inj hhead).2, mapM_readField] at hfields
  rw [← Option.some.inj hfields, hbody] at hn
  rw [← Option.some.inj hn, hrest, List.length_append] at hle
  have hnil : t = [] := List.length_eq_zero_iff.mp (by omega)
  rw [hnil, List.append_nil] at ht
  exact hne ht

end Write

end HttpMessages
