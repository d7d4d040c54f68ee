import Mathlib

/-!
# Comma-separated values

A reader of comma-separated values, byte by byte: records end with a newline or a carriage
return, fields with a comma, and a field that starts with a double quote goes on to the quote that
closes it, two quotes standing for one. Blank lines are skipped and a quote inside a field without
quotes is an ordinary byte. A writer that uses no quotes is read back as long as its fields are
bare; a field that is not bare is never read back.

## Main definitions

* `Reader`, `read`: the reader and its records.
* `writeRecord`: a record without quotes.
* `Bare`: the fields that need no quotes.

## Main results

* `read_flatMap_writeRecord`: records of bare fields are read back.
* `read_writeRecord_iff`: a first field is read back if and only if it is bare.
-/

namespace Csv

abbrev Text := List UInt8

/-! ### The reader -/

/-- Where the reader is: at the start of a record, behind a comma, in a field without quotes,
between quotes, or behind a quote that may close them. -/
inductive Mode where
  | record
  | field
  | bare
  | quoted
  | quote
deriving DecidableEq

/-- The records so far, the fields of the record and the field that are being read. -/
structure Reader where
  mode : Mode := .record
  records : List (List Text) := []
  fields : List Text := []
  current : Text := []

namespace Reader

def keep (r : Reader) (mode : Mode) (b : UInt8) : Reader :=
  { r with mode := mode, current := r.current ++ [b] }

def endField (r : Reader) : Reader :=
  { r with mode := .field, fields := r.fields ++ [r.current], current := [] }

def endRecord (r : Reader) : Reader :=
  { mode := .record, records := r.records ++ [r.fields ++ [r.current]] }

/-- A byte that is not between quotes. -/
def outside (r : Reader) (b : UInt8) : Reader :=
  if b = 44 then r.endField else if b = 10 ∨ b = 13 then r.endRecord else r.keep .bare b

def step (r : Reader) (b : UInt8) : Reader :=
  match r.mode with
  | .record =>
    if b = 34 then { r with mode := .quoted } else if b = 10 ∨ b = 13 then r else r.outside b
  | .field => if b = 34 then { r with mode := .quoted } else r.outside b
  | .bare => r.outside b
  | .quoted => if b = 34 then { r with mode := .quote } else r.keep .quoted b
  | .quote => if b = 34 then r.keep .quoted b else r.outside b

/-- The records at the end of the text. -/
def finish (r : Reader) : List (List Text) :=
  if r.mode = .record then r.records else r.endRecord.records

end Reader

def read (s : Text) : List (List Text) := (s.foldl Reader.step {}).finish

/-! ### Records without quotes -/

def writeRecord (fields : List Text) : Text := List.intercalate [44] fields ++ [10]

/-- The text has no comma, no newline and no carriage return. -/
def Unbroken (v : Text) : Prop := ∀ b ∈ v, b ≠ 44 ∧ b ≠ 10 ∧ b ≠ 13

instance (v : Text) : Decidable (Unbroken v) :=
  decidable_of_iff (v.all fun b => b != 44 && (b != 10 && b != 13)) (by simp [Unbroken])

theorem unbroken_nil : Unbroken [] := fun _ hb => absurd hb List.not_mem_nil

/-- The field is unbroken and does not start with a quote. -/
structure Bare (v : Text) : Prop where
  head : v.head? ≠ some 34
  unbroken : Unbroken v

instance (v : Text) : Decidable (Bare v) :=
  decidable_of_iff (v.head? ≠ some 34 ∧ Unbroken v)
    ⟨fun h => ⟨h.1, h.2⟩, fun h => ⟨h.head, h.unbroken⟩⟩

theorem Bare.takeWhile {v : Text} (h : Bare v) (p : UInt8 → Bool) : Bare (v.takeWhile p) := by
  refine ⟨fun hhead => h.head ?_, fun b hb => h.unbroken b ((List.takeWhile_sublist p).subset hb)⟩
  cases v with
  | nil => exact hhead
  | cons b v =>
    rw [List.takeWhile_cons] at hhead
    split at hhead
    · exact hhead
    · cases hhead

theorem writeRecord_singleton (v : Text) : writeRecord [v] = v ++ [10] := by
  simp [writeRecord]

theorem writeRecord_cons (v w : Text) (l : List Text) :
    writeRecord (v :: w :: l) = v ++ 44 :: writeRecord (w :: l) := by
  simp [writeRecord, List.intercalate_cons_of_ne_nil]

/-- A record is its first field, and each further one behind a comma. -/
theorem writeRecord_eq_flatMap (v : Text) (l : List Text) :
    writeRecord (v :: l) = v ++ l.flatMap (fun x => [44] ++ x) ++ [10] := by
  induction l generalizing v with
  | nil => simp [writeRecord_singleton]
  | cons w l ih =>
    rw [writeRecord_cons, ih w, List.flatMap_cons]
    simp

variable {r : Reader}

/-- Bytes of a bare field are kept. -/
theorem foldl_step_bare {v : Text} (hm : r.mode = .bare) (hv : Unbroken v) :
    v.foldl Reader.step r = { r with current := r.current ++ v } := by
  induction v generalizing r with
  | nil => simp
  | cons b v ih =>
    obtain ⟨hcomma, hlf, hcr⟩ := hv b List.mem_cons_self
    have hstep : r.step b = r.keep .bare b := by
      rw [Reader.step, hm]
      dsimp only [Reader.outside]
      rw [if_neg hcomma, if_neg (not_or.mpr ⟨hlf, hcr⟩)]
    rw [List.foldl_cons, hstep, ih rfl fun c hc => hv c (List.mem_cons_of_mem b hc), Reader.keep,
      ← hm]
    simp

/-- The reader after a bare field. -/
theorem foldl_step_field {v : Text} (hm : r.mode = .record ∨ r.mode = .field)
    (hcurrent : r.current = []) (hv : Bare v) (hne : v ≠ []) :
    v.foldl Reader.step r = { r with mode := .bare, current := v } := by
  obtain ⟨b, v, rfl⟩ := List.exists_cons_of_ne_nil hne
  obtain ⟨hcomma, hlf, hcr⟩ := hv.unbroken b List.mem_cons_self
  have hquote : b ≠ 34 := fun heq => hv.head (congrArg some heq)
  have hstep : r.step b = r.keep .bare b := by
    have houtside : r.outside b = r.keep .bare b := by
      rw [Reader.outside, if_neg hcomma, if_neg (not_or.mpr ⟨hlf, hcr⟩)]
    rcases hm with hm | hm
    · rw [Reader.step, hm]
      dsimp only
      rw [if_neg hquote, if_neg (not_or.mpr ⟨hlf, hcr⟩), houtside]
    · rw [Reader.step, hm]
      dsimp only
      rw [if_neg hquote, houtside]
  rw [List.foldl_cons, hstep,
    foldl_step_bare rfl fun c hc => hv.unbroken c (List.mem_cons_of_mem b hc), Reader.keep,
    hcurrent]
  rfl

/-- A bare field and its comma. -/
theorem foldl_step_comma {v : Text} (hm : r.mode = .record ∨ r.mode = .field)
    (hcurrent : r.current = []) (hv : Bare v) :
    (v ++ [44]).foldl Reader.step r =
      { r with mode := .field, fields := r.fields ++ [v], current := [] } := by
  rw [List.foldl_append]
  by_cases hne : v = []
  · subst hne
    have hstep : r.step 44 = r.endField := by
      rcases hm with hm | hm <;> rw [Reader.step, hm] <;> rfl
    rw [List.foldl_nil, List.foldl_cons, hstep, Reader.endField, hcurrent]
    rfl
  · rw [foldl_step_field hm hcurrent hv hne]
    rfl

/-- A bare field and the end of its record. -/
theorem foldl_step_newline {v : Text} (hm : r.mode = .field) (hcurrent : r.current = [])
    (hv : Bare v) : (v ++ [10]).foldl Reader.step r =
      { mode := .record, records := r.records ++ [r.fields ++ [v]] } := by
  rw [List.foldl_append]
  by_cases hne : v = []
  · subst hne
    have hstep : r.step 10 = r.endRecord := by
      rw [Reader.step, hm]
      rfl
    rw [List.foldl_nil, List.foldl_cons, hstep, Reader.endRecord, hcurrent]
    rfl
  · rw [foldl_step_field (.inr hm) hcurrent hv hne]
    rfl

/-- The reader after the last fields of a record. -/
theorem foldl_writeRecord {l : List Text} (hm : r.mode = .field) (hcurrent : r.current = [])
    (hl : ∀ v ∈ l, Bare v) (hne : l ≠ []) : (writeRecord l).foldl Reader.step r =
      { mode := .record, records := r.records ++ [r.fields ++ l] } := by
  induction l generalizing r with
  | nil => exact absurd rfl hne
  | cons v l ih =>
    have hv := hl v List.mem_cons_self
    cases l with
    | nil =>
      rw [writeRecord_singleton]
      exact foldl_step_newline hm hcurrent hv
    | cons w l =>
      rw [writeRecord_cons, List.append_cons, List.foldl_append,
        foldl_step_comma (.inr hm) hcurrent hv,
        ih rfl rfl (fun x hx => hl x (List.mem_cons_of_mem v hx)) (List.cons_ne_nil w l)]
      simp

/-- **Reading a record.** -/
theorem foldl_writeRecord_start {v w : Text} {l : List Text} (hl : ∀ x ∈ v :: w :: l, Bare x)
    (records : List (List Text)) :
    (writeRecord (v :: w :: l)).foldl Reader.step { records := records } =
      { records := records ++ [v :: w :: l] } := by
  rw [writeRecord_cons, List.append_cons, List.foldl_append,
    foldl_step_comma (.inl rfl) rfl (hl v List.mem_cons_self),
    foldl_writeRecord rfl rfl (fun x hx => hl x (List.mem_cons_of_mem v hx))
      (List.cons_ne_nil w l)]
  rfl

/-- **Reading back.** Records of at least two bare fields are read back. -/
theorem read_flatMap_writeRecord {table : List (List Text)}
    (h : ∀ l ∈ table, 2 ≤ l.length ∧ ∀ v ∈ l, Bare v) :
    read (table.flatMap writeRecord) = table := by
  have hfold (records : List (List Text)) :
      (table.flatMap writeRecord).foldl Reader.step { records := records } =
        { records := records ++ table } := by
    induction table generalizing records with
    | nil => simp
    | cons l table ih =>
      obtain ⟨hlen, hbare⟩ := h l List.mem_cons_self
      obtain ⟨v, w, k, rfl⟩ : ∃ v w k, l = v :: w :: k := by
        cases l with
        | nil => simp at hlen
        | cons v l =>
          cases l with
          | nil => simp at hlen
          | cons w k => exact ⟨v, w, k, rfl⟩
      rw [List.flatMap_cons, List.foldl_append, foldl_writeRecord_start hbare,
        ih fun l' hl' => h l' (List.mem_cons_of_mem _ hl')]
      simp
  rw [read, hfold]
  rfl

/-! ### Fields that are not bare -/

/-- The bytes of the fields, with the one behind each. -/
def size (fields : List Text) : ℕ := (fields.map fun v => v.length + 1).sum

/-- The bytes of the text that the reader has not dropped. -/
def Reader.kept (r : Reader) : ℕ :=
  (r.records.map size).sum + size r.fields + r.current.length

/-- The reader has seen no quotes, and none of its fields has a comma or an end of line. -/
structure Reader.Clean (r : Reader) : Prop where
  mode : r.mode ≠ .quoted ∧ r.mode ≠ .quote
  records : ∀ l ∈ r.records, ∀ v ∈ l, Unbroken v
  fields : ∀ v ∈ r.fields, Unbroken v
  current : Unbroken r.current

theorem length_writeRecord {l : List Text} (hl : l ≠ []) : (writeRecord l).length = size l := by
  induction l with
  | nil => exact absurd rfl hl
  | cons v l ih =>
    cases l with
    | nil => simp [writeRecord_singleton, size]
    | cons w l =>
      rw [writeRecord_cons, List.length_append, List.length_cons, ih (List.cons_ne_nil w l), size,
        size]
      simp only [List.map_cons, List.sum_cons]
      omega

theorem kept_keep (r : Reader) (m : Mode) (b : UInt8) : (r.keep m b).kept = r.kept + 1 := by
  simp only [Reader.keep, Reader.kept, List.length_append, List.length_singleton]
  omega

theorem kept_endField (r : Reader) : r.endField.kept = r.kept + 1 := by
  simp only [Reader.endField, Reader.kept, size, List.map_append, List.sum_append, List.map_cons,
    List.map_nil, List.sum_cons, List.sum_nil, List.length_nil]
  omega

theorem kept_endRecord (r : Reader) : r.endRecord.kept = r.kept + 1 := by
  simp only [Reader.endRecord, Reader.kept, size, List.map_append, List.sum_append, List.map_cons,
    List.map_nil, List.sum_cons, List.sum_nil, List.length_nil]
  omega

theorem kept_outside (r : Reader) (b : UInt8) : (r.outside b).kept = r.kept + 1 := by
  rw [Reader.outside]
  split
  · exact kept_endField r
  · split
    · exact kept_endRecord r
    · exact kept_keep r .bare b

theorem Reader.Clean.outside (h : r.Clean) (b : UInt8) : (r.outside b).Clean := by
  have hfields : ∀ v ∈ r.fields ++ [r.current], Unbroken v :=
    List.forall_mem_append.mpr ⟨h.fields, List.forall_mem_singleton.mpr h.current⟩
  rw [Reader.outside]
  split
  case isTrue => exact ⟨⟨nofun, nofun⟩, h.records, hfields, unbroken_nil⟩
  case isFalse hcomma =>
    split
    case isTrue =>
      refine ⟨⟨nofun, nofun⟩, fun l hl => ?_, fun v hv => absurd hv List.not_mem_nil,
        unbroken_nil⟩
      rcases List.mem_append.mp hl with hl | hl
      · exact h.records l hl
      · rw [List.mem_singleton.mp hl]
        exact hfields
    case isFalse hend =>
      refine ⟨⟨nofun, nofun⟩, h.records, h.fields, fun c hc => ?_⟩
      rcases List.mem_append.mp hc with hc | hc
      · exact h.current c hc
      · rw [List.mem_singleton.mp hc]
        exact ⟨hcomma, not_or.mp hend⟩

/-- A step keeps at most its byte, and when there were no quotes so far, it stays clean or drops
the byte. -/
theorem kept_step (r : Reader) (b : UInt8) : (r.step b).kept ≤ r.kept + 1 ∧
    (r.Clean → (r.step b).Clean ∨ (r.step b).kept ≤ r.kept) := by
  have houtside := kept_outside r b
  have hclean := fun h : r.Clean => h.outside b
  rw [Reader.step]
  cases hm : r.mode with
  | record =>
    dsimp only
    split
    · exact ⟨Nat.le_succ _, fun _ => .inr le_rfl⟩
    · split
      · exact ⟨Nat.le_succ _, fun _ => .inr le_rfl⟩
      · exact ⟨houtside.le, fun h => .inl (hclean h)⟩
  | field =>
    dsimp only
    split
    · exact ⟨Nat.le_succ _, fun _ => .inr le_rfl⟩
    · exact ⟨houtside.le, fun h => .inl (hclean h)⟩
  | bare => exact ⟨houtside.le, fun h => .inl (hclean h)⟩
  | quoted =>
    refine ⟨?_, fun h => absurd hm h.mode.1⟩
    dsimp only
    split
    · exact Nat.le_succ _
    · exact (kept_keep r .quoted b).le
  | quote =>
    refine ⟨?_, fun h => absurd hm h.mode.2⟩
    dsimp only
    split
    · exact (kept_keep r .quoted b).le
    · exact houtside.le

/-- **What a text leaves.** The reader keeps at most the bytes of the text, and it stays clean or
drops one. -/
theorem kept_foldl (r : Reader) (s : Text) : (s.foldl Reader.step r).kept ≤ r.kept + s.length ∧
    (r.Clean → (s.foldl Reader.step r).Clean ∨
      (s.foldl Reader.step r).kept + 1 ≤ r.kept + s.length) := by
  induction s generalizing r with
  | nil => exact ⟨le_rfl, .inl⟩
  | cons b s ih =>
    obtain ⟨hle, hstep⟩ := kept_step r b
    obtain ⟨hrest, hclean⟩ := ih (r.step b)
    rw [List.foldl_cons, List.length_cons]
    refine ⟨by omega, fun h => ?_⟩
    rcases hstep h with hc | hdrop
    · rcases hclean hc with hc | hdrop
      · exact .inl hc
      · exact .inr (by omega)
    · exact .inr (by omega)

theorem clean_start : ({} : Reader).Clean :=
  ⟨⟨nofun, nofun⟩, fun _ hl => absurd hl List.not_mem_nil, fun _ hv => absurd hv List.not_mem_nil,
    unbroken_nil⟩

/-- A newline ends the record, unless it is between quotes. -/
theorem step_newline (r : Reader) :
    (r.step 10).mode = .record ∨ r.step 10 = r.keep .quoted 10 := by
  rw [Reader.step]
  cases hm : r.mode with
  | record => exact .inl hm
  | field => exact .inl rfl
  | bare => exact .inl rfl
  | quoted => exact .inr rfl
  | quote => exact .inl rfl

/-- **A first field that is read back is bare.** -/
theorem bare_of_read {v w : Text} {l : List Text} (hrest : ∀ x ∈ w :: l, 10 ∉ x)
    (h : read (writeRecord (v :: w :: l)) = [v :: w :: l]) : Bare v := by
  have hlen := length_writeRecord (List.cons_ne_nil v (w :: l))
  obtain ⟨s, hs⟩ : ∃ s, writeRecord (v :: w :: l) = s ++ [10] := ⟨_, rfl⟩
  have hstep : (writeRecord (v :: w :: l)).foldl Reader.step {} =
      (s.foldl Reader.step {}).step 10 := by
    rw [hs, List.foldl_append]
    rfl
  rw [read, Reader.finish] at h
  rcases step_newline (s.foldl Reader.step {}) with hm | hkeep
  · -- the record has ended, so every byte was kept
    rw [hstep, if_pos hm] at h
    have hall : (writeRecord (v :: w :: l)).length ≤
        ((writeRecord (v :: w :: l)).foldl Reader.step {}).kept := by
      rw [hlen, hstep, Reader.kept, h, List.map_singleton, List.sum_singleton]
      omega
    obtain ⟨-, hclean⟩ := kept_foldl {} (writeRecord (v :: w :: l))
    rcases hclean clean_start with hclean | hdrop
    · refine ⟨fun hquote => ?_, ?_⟩
      · obtain ⟨v', rfl⟩ : ∃ v', v = 34 :: v' := by
          cases v with
          | nil => cases hquote
          | cons b v' => exact ⟨v', by rw [Option.some.inj hquote]⟩
        rw [writeRecord_cons, List.cons_append, List.foldl_cons] at hall
        have hle := (kept_foldl (({} : Reader).step 34) (v' ++ 44 :: writeRecord (w :: l))).1
        have hzero : (({} : Reader).step 34).kept = 0 := rfl
        rw [List.length_cons] at hall
        omega
      · rw [hstep] at hclean
        exact hclean.records (v :: w :: l) (by rw [h]; exact List.mem_singleton_self _) v
          List.mem_cons_self
    · have hzero : ({} : Reader).kept = 0 := rfl
      omega
  · -- the newline is between quotes, so the last field ends with it
    rw [hstep, hkeep, if_neg nofun] at h
    have hrecord := congrArg List.getLast? h
    rw [Reader.keep, Reader.endRecord, List.getLast?_concat, List.getLast?_singleton] at hrecord
    have hfield := congrArg List.getLast? (Option.some.inj hrecord)
    rw [List.getLast?_concat, List.getLast?_cons_cons] at hfield
    exact absurd (List.mem_append_right _ (List.mem_singleton_self 10))
      (hrest _ (List.mem_of_getLast? hfield.symm))

/-- A field before bare fields is read back if and only if it is bare. -/
theorem read_writeRecord_iff {v w : Text} {l : List Text} (hrest : ∀ x ∈ w :: l, Bare x) :
    read (writeRecord (v :: w :: l)) = [v :: w :: l] ↔ Bare v := by
  refine ⟨bare_of_read fun x hx hnewline => ((hrest x hx).unbroken 10 hnewline).2.1 rfl,
    fun hv => ?_⟩
  rw [read, foldl_writeRecord_start (List.forall_mem_cons.mpr ⟨hv, hrest⟩)]
  rfl

end Csv
