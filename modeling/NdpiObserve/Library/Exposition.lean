import Mathlib

/-!
# Text exposition of metrics

The text format in which metrics are scraped, byte by byte: lines that are comments or samples, a
sample being the name of a metric, labels with quoted values, and a number. Comments and values are
UTF-8. Inside the quotes a backslash stands in front of a quote, of a backslash, and of the letter
that means a newline. A writer is a function of the quoting, so that a page written without it can
be compared with the page it should have been.

## Main definitions

* `escape`, `Plain`: the quoting, and the values that it leaves alone.
* `Utf8`, `Clean`: the values of the format, and those of them that quoting leaves alone.
* `Sample`, `Line`, `write`: the content of a page, and its text.
* `Reads`: a text of the format, with its content.
* `series`, `OneMetric`: the series that the samples belong to.

## Main results

* `Reads.unique`: a text has at most one content.
* `write_id_eq_iff`: a page without quoting is the page with it if and only if all values of
  labels are plain.
* `nodup_series_flatMap`: when a page has no series twice.
-/

namespace Exposition

abbrev Text := List UInt8

/-! ### Quoting -/

/-- A quote, a backslash or a newline. -/
def special (b : UInt8) : Bool := b = 34 || b = 92 || b = 10

def escapeByte (b : UInt8) : Text :=
  if b = 10 then [92, 110] else if special b then [92, b] else [b]

def escape (v : Text) : Text := v.flatMap escapeByte

/-- The value has nothing to quote. -/
def Plain (v : Text) : Prop := ∀ b ∈ v, special b = false

instance (v : Text) : Decidable (Plain v) := inferInstanceAs (Decidable (∀ b ∈ v, _))

/-- The same as a computation. -/
theorem plain_append {v w : Text} : Plain (v ++ w) ↔ Plain v ∧ Plain w := List.forall_mem_append

theorem length_escapeByte (b : UInt8) :
    (escapeByte b).length = 1 + if special b then 1 else 0 := by
  rw [escapeByte]
  split
  case isTrue h => rw [h]; rfl
  case isFalse => split <;> rfl

theorem length_escape (v : Text) : (escape v).length = v.length + v.countP special := by
  induction v with
  | nil => rfl
  | cons b v ih =>
    rw [escape, List.flatMap_cons, List.length_append, length_escapeByte, List.countP_cons,
      List.length_cons]
    rw [escape] at ih
    omega

theorem escape_of_plain {v : Text} (h : Plain v) : escape v = v := by
  have hsingle : ∀ b ∈ v, escapeByte b = [b] := fun b hb => by
    have hb' := h b hb
    have hne : b ≠ 10 := by
      rintro rfl
      exact absurd hb' (by decide)
    rw [escapeByte, if_neg hne, if_neg (by simp [hb'])]
  rw [escape, List.flatMap_congr hsingle, List.flatMap_singleton']

theorem countP_special_eq_zero {v : Text} : v.countP special = 0 ↔ Plain v := by
  rw [List.countP_eq_zero]
  exact forall₂_congr fun b _ => by rw [Bool.not_eq_true]

/-- Quoting adds bytes of its own only. -/
theorem mem_escape {b : UInt8} {v : Text} (h : b ∈ escape v) : b ∈ v ∨ b = 92 ∨ b = 110 := by
  obtain ⟨x, hx, hb⟩ := List.mem_flatMap.mp h
  rw [escapeByte] at hb
  split at hb
  · simp only [List.mem_cons, List.not_mem_nil, or_false] at hb
    exact .inr hb
  · split at hb
    · rcases List.mem_cons.mp hb with rfl | hb
      · exact .inr (.inl rfl)
      · rw [List.mem_singleton.mp hb]
        exact .inl hx
    · rw [List.mem_singleton.mp hb]
      exact .inl hx

/-- There is no newline inside the quotes. -/
theorem newline_notMem_escape (v : Text) : 10 ∉ escape v := by
  intro h
  obtain ⟨x, -, hx⟩ := List.mem_flatMap.mp h
  rw [escapeByte] at hx
  split at hx
  case isTrue => simp at hx
  case isFalse hne =>
    split at hx
    · simp only [List.mem_cons, List.not_mem_nil, or_false] at hx
      exact hne (hx.resolve_left (by decide)).symm
    · exact hne (List.mem_singleton.mp hx).symm

theorem escapeByte_cases (b : UInt8) :
    (b = 10 ∧ escapeByte b = [92, 110]) ∨ (b = 34 ∧ escapeByte b = [92, 34]) ∨
      (b = 92 ∧ escapeByte b = [92, 92]) ∨ (b ≠ 34 ∧ b ≠ 92) ∧ escapeByte b = [b] := by
  rw [escapeByte, special]
  by_cases h₁ : b = 10
  · exact .inl ⟨h₁, if_pos h₁⟩
  by_cases h₂ : b = 34
  · subst h₂
    exact .inr (.inl ⟨rfl, rfl⟩)
  by_cases h₃ : b = 92
  · subst h₃
    exact .inr (.inr (.inl ⟨rfl, rfl⟩))
  · exact .inr (.inr (.inr ⟨⟨h₂, h₃⟩, by simp [h₁, h₂, h₃]⟩))

/-- The quoting of the first byte can be told from the text. -/
theorem escapeByte_append_inj {b b' : UInt8} {x y : Text}
    (h : escapeByte b ++ x = escapeByte b' ++ y) : b = b' ∧ x = y := by
  rcases escapeByte_cases b with ⟨rfl, hb⟩ | ⟨rfl, hb⟩ | ⟨rfl, hb⟩ | ⟨⟨hquote, hslash⟩, hb⟩
  all_goals
    rcases escapeByte_cases b' with ⟨rfl, hb'⟩ | ⟨rfl, hb'⟩ | ⟨rfl, hb'⟩ | ⟨⟨hquote', hslash'⟩, hb'⟩
    all_goals
      simp_all

/-- A quoted value ends at the first quote that is not escaped. -/
theorem escape_append_inj {v v' x y : Text} (h : escape v ++ 34 :: x = escape v' ++ 34 :: y) :
    v = v' ∧ x = y := by
  have hclose (b : UInt8) (w x y : Text) : 34 :: x ≠ escape (b :: w) ++ 34 :: y := by
    rw [escape, List.flatMap_cons]
    rcases escapeByte_cases b with ⟨-, hb⟩ | ⟨-, hb⟩ | ⟨-, hb⟩ | ⟨⟨hquote, -⟩, hb⟩
    all_goals
      rw [hb]
      simp_all [eq_comm]
  induction v generalizing v' with
  | nil =>
    cases v' with
    | nil => exact ⟨rfl, (List.cons.inj h).2⟩
    | cons b w => exact absurd h (hclose b w x y)
  | cons b v ih =>
    cases v' with
    | nil => exact absurd h.symm (hclose b v y x)
    | cons b' v' =>
      rw [escape, escape, List.flatMap_cons, List.flatMap_cons, List.append_assoc,
        List.append_assoc] at h
      obtain ⟨rfl, hrest⟩ := escapeByte_append_inj h
      obtain ⟨rfl, hxy⟩ := ih hrest
      exact ⟨rfl, hxy⟩

/-! ### UTF-8 -/

/-- The text is UTF-8. -/
def Utf8 (v : Text) : Prop := v.toByteArray.IsValidUTF8

instance (v : Text) : Decidable (Utf8 v) := inferInstanceAs (Decidable v.toByteArray.IsValidUTF8)

theorem Utf8.append {v w : Text} (hv : Utf8 v) (hw : Utf8 w) : Utf8 (v ++ w) := by
  rw [Utf8, List.toByteArray_append]
  exact ByteArray.IsValidUTF8.append hv hw

theorem utf8_of_ascii {v : Text} (h : ∀ b ∈ v, b < 128) : Utf8 v := by
  have hchar (b : UInt8) (hb : b < 128) : ∃ c : Char, String.utf8EncodeChar c = [b] := by
    have hall : ∀ n : Fin 128, String.utf8EncodeChar (Char.ofNat n) = [UInt8.ofNat n] := by
      decide +kernel
    exact ⟨_, (hall ⟨b.toNat, UInt8.lt_iff_toNat_lt.mp hb⟩).trans (by rw [UInt8.ofNat_toNat])⟩
  induction v with
  | nil => exact ByteArray.isValidUTF8_empty
  | cons b v ih =>
    rw [List.forall_mem_cons] at h
    obtain ⟨c, hc⟩ := hchar b h.1
    rw [← List.singleton_append, ← hc]
    exact Utf8.append Char.isValidUTF8_toByteArray_utf8EncodeChar (ih h.2)

/-- The value is UTF-8 and has nothing to quote. -/
def Clean (v : Text) : Prop := Plain v ∧ Utf8 v

instance (v : Text) : Decidable (Clean v) := inferInstanceAs (Decidable (_ ∧ _))

theorem Clean.append {v w : Text} (hv : Clean v) (hw : Clean w) : Clean (v ++ w) :=
  ⟨plain_append.mpr ⟨hv.1, hw.1⟩, hv.2.append hw.2⟩

theorem clean_of_ascii {v : Text} (h : ∀ b ∈ v, b < 128 ∧ special b = false) : Clean v :=
  ⟨fun b hb => (h b hb).2, utf8_of_ascii fun b hb => (h b hb).1⟩

/-! ### Lines -/

structure Sample where
  name : Text
  labels : List (Text × Text)
  value : Text
deriving DecidableEq

inductive Line where
  | comment (text : Text)
  | sample (s : Sample)
deriving DecidableEq

section Write

-- The quoting of the values of labels.
variable (quote : Text → Text)

def writeLabel (l : Text × Text) : Text := l.1 ++ 61 :: 34 :: (quote l.2 ++ [34])

def writeLabels : List (Text × Text) → Text
  | [] => []
  | l :: ls => writeLabel quote l ++ ls.flatMap fun l => 44 :: writeLabel quote l

def Line.write : Line → Text
  | .comment text => text
  | .sample s => s.name ++ 123 :: (writeLabels quote s.labels ++ 125 :: 32 :: s.value)

/-- The text of a page. -/
def write (l : List Line) : Text := l.flatMap fun x => x.write quote ++ [10]

end Write

/-! ### The grammar -/

def isDigit (b : UInt8) : Bool := 48 ≤ b && b ≤ 57

/-- A byte that a name may start with. -/
def isLetter (b : UInt8) : Bool := (65 ≤ b && b ≤ 90) || (97 ≤ b && b ≤ 122) || b = 95

/-- The name of a label, or with `colon` that of a metric. -/
def isName (colon : Bool) : Text → Bool
  | [] => false
  | b :: rest => (isLetter b || colon && b = 58) &&
    rest.all fun b => isLetter b || isDigit b || colon && b = 58

def isDigits (v : Text) : Bool := v ≠ [] && v.all isDigit

/-- Digits, and after a dot more digits. -/
def isUnsigned (v : Text) : Bool :=
  isDigits v || isDigits (v.takeWhile (· ≠ 46)) && isDigits ((v.dropWhile (· ≠ 46)).drop 1)

def isNumber : Text → Bool
  | 45 :: v => isUnsigned v
  | v => isUnsigned v

/-- A comment is UTF-8, starts with `#` and is one line. The parts of a sample, apart from the
values of its labels, are names and a number. -/
def Line.Formed : Line → Prop
  | .comment text => text.head? = some 35 ∧ 10 ∉ text ∧ Utf8 text
  | .sample s => isName true s.name = true ∧ (∀ l ∈ s.labels, isName false l.1 = true) ∧
    isNumber s.value = true

/-- The values of the labels meet `P`. -/
def Line.Values (P : Text → Prop) : Line → Prop
  | .comment _ => True
  | .sample s => ∀ l ∈ s.labels, P l.2

/-- A line of the format. -/
def Line.Valid (x : Line) : Prop := x.Formed ∧ x.Values Utf8

theorem Line.values_clean_iff {x : Line} :
    x.Values Clean ↔ x.Values Plain ∧ x.Values Utf8 := by
  cases x with
  | comment => exact (and_iff_left trivial).symm
  | sample s => simp only [Values, Clean, forall₂_and]

/-- The text `b` is a page of the format with the content `l`. -/
def Reads (b : Text) (l : List Line) : Prop := (∀ x ∈ l, x.Valid) ∧ b = write escape l

/-! ### Bytes of the parts -/

theorem mem_isName {colon : Bool} {n : Text} (h : isName colon n = true) {b : UInt8}
    (hb : b ∈ n) : isLetter b = true ∨ isDigit b = true ∨ b = 58 := by
  cases n with
  | nil => cases hb
  | cons x rest =>
    simp only [isName, Bool.and_eq_true, Bool.or_eq_true, decide_eq_true_eq, List.all_eq_true] at h
    obtain ⟨hx, hrest⟩ := h
    rcases List.mem_cons.mp hb with rfl | hb
    · exact hx.imp_right fun hcolon => .inr hcolon.2
    · rcases hrest b hb with (hletter | hdigit) | hcolon
      · exact .inl hletter
      · exact .inr (.inl hdigit)
      · exact .inr (.inr hcolon.2)

/-- Names have none of the bytes that separate the parts of a line. -/
theorem notMem_of_isName {colon : Bool} {n : Text} (h : isName colon n = true) {b : UInt8}
    (hb : b ∈ [10, 34, 35, 44, 61, 123, 125]) : b ∉ n := by
  intro hmem
  have hname := mem_isName h hmem
  revert hname
  simp only [List.mem_cons, List.not_mem_nil, or_false] at hb
  rcases hb with rfl | rfl | rfl | rfl | rfl | rfl | rfl <;> decide

theorem mem_isDigits {v : Text} (h : isDigits v = true) {b : UInt8} (hb : b ∈ v) :
    isDigit b = true := by
  rw [isDigits, Bool.and_eq_true, List.all_eq_true] at h
  exact h.2 b hb

/-- Digits with digits behind a dot. -/
theorem isUnsigned_fraction {v w : Text} (hv : isDigits v = true) (hw : isDigits w = true) :
    isUnsigned (v ++ 46 :: w) = true := by
  have hdot : ∀ b ∈ v, decide (b ≠ 46) = true := fun b hb => by
    rw [decide_eq_true_iff]
    rintro rfl
    exact absurd (mem_isDigits hv hb) (by decide)
  rw [isUnsigned, List.takeWhile_append_of_pos hdot, List.dropWhile_append_of_pos hdot]
  simp [hv, hw]

theorem newline_notMem_of_isUnsigned {v : Text} (h : isUnsigned v = true) : 10 ∉ v := by
  have hdigit {w : Text} (hw : isDigits w = true) : 10 ∉ w := fun hmem =>
    absurd (mem_isDigits hw hmem) (by decide)
  rw [isUnsigned, Bool.or_eq_true, Bool.and_eq_true] at h
  rcases h with h | ⟨hint, hfrac⟩
  · exact hdigit h
  · intro hall
    have hsplit := List.takeWhile_append_dropWhile (p := fun b => b ≠ 46) (l := v)
    rw [← hsplit, List.mem_append] at hall
    rcases hall with hmem | hmem
    · exact hdigit hint hmem
    · have hhead := List.head?_dropWhile_not (fun b : UInt8 => decide (b ≠ 46)) v
      generalize v.dropWhile (fun b => decide (b ≠ 46)) = w at hfrac hmem hhead
      cases w with
      | nil => cases hmem
      | cons b rest =>
        have hb : b = 46 := by simpa using hhead
        rcases List.mem_cons.mp hmem with hnew | hmem
        · rw [hb] at hnew
          exact absurd hnew (by decide)
        · exact hdigit hfrac hmem

theorem newline_notMem_of_isNumber {v : Text} (h : isNumber v = true) : 10 ∉ v := by
  cases v with
  | nil => exact List.not_mem_nil
  | cons b w =>
    by_cases hb : b = 45
    · subst hb
      rw [List.mem_cons]
      exact not_or_intro (by decide) (newline_notMem_of_isUnsigned h)
    · refine newline_notMem_of_isUnsigned ?_
      rw [isNumber] at h
      · exact h
      · exact fun w' heq => hb (List.cons.inj heq).1

/-! ### Unique reading -/

/-- The part in front of the first `b` can be told from the text. -/
theorem append_cons_inj {b : UInt8} {u v x y : Text} (hu : b ∉ u) (hv : b ∉ v)
    (h : u ++ b :: x = v ++ b :: y) : u = v ∧ x = y := by
  induction u generalizing v with
  | nil =>
    cases v with
    | nil => exact ⟨rfl, (List.cons.inj h).2⟩
    | cons c v => exact absurd ((List.cons.inj h).1 ▸ List.mem_cons_self) hv
  | cons c u ih =>
    cases v with
    | nil => exact absurd ((List.cons.inj h).1 ▸ List.mem_cons_self) hu
    | cons c' v =>
      obtain ⟨rfl, hrest⟩ := List.cons.inj h
      obtain ⟨rfl, hxy⟩ := ih (List.not_mem_of_not_mem_cons hu)
        (List.not_mem_of_not_mem_cons hv) hrest
      exact ⟨rfl, hxy⟩

theorem writeLabel_append_inj {l l' : Text × Text} {x y : Text} (hl : isName false l.1 = true)
    (hl' : isName false l'.1 = true)
    (h : writeLabel escape l ++ x = writeLabel escape l' ++ y) : l = l' ∧ x = y := by
  simp only [writeLabel, List.append_assoc, List.cons_append, List.nil_append] at h
  obtain ⟨hname, hrest⟩ := append_cons_inj (notMem_of_isName hl (b := 61) (by decide))
    (notMem_of_isName hl' (by decide)) h
  obtain ⟨hvalue, hxy⟩ := escape_append_inj (List.cons.inj hrest).2
  exact ⟨Prod.ext hname hvalue, hxy⟩

/-- The labels behind the first one end at the closing brace. -/
theorem moreLabels_append_inj {ls ls' : List (Text × Text)} {x y : Text}
    (hls : ∀ l ∈ ls, isName false l.1 = true) (hls' : ∀ l ∈ ls', isName false l.1 = true)
    (h : (ls.flatMap fun l => 44 :: writeLabel escape l) ++ 125 :: x =
      (ls'.flatMap fun l => 44 :: writeLabel escape l) ++ 125 :: y) : ls = ls' ∧ x = y := by
  induction ls generalizing ls' with
  | nil =>
    cases ls' with
    | nil => exact ⟨rfl, (List.cons.inj h).2⟩
    | cons l' ls' => exact absurd (List.cons.inj h).1 (by decide)
  | cons l ls ih =>
    cases ls' with
    | nil => exact absurd (List.cons.inj h).1 (by decide)
    | cons l' ls' =>
      rw [List.flatMap_cons, List.flatMap_cons, List.append_assoc, List.append_assoc] at h
      rw [List.forall_mem_cons] at hls hls'
      obtain ⟨rfl, hrest⟩ := writeLabel_append_inj hls.1 hls'.1 (List.cons.inj h).2
      obtain ⟨rfl, hxy⟩ := ih hls.2 hls'.2 hrest
      exact ⟨rfl, hxy⟩

theorem writeLabels_append_inj {ls ls' : List (Text × Text)} {x y : Text}
    (hls : ∀ l ∈ ls, isName false l.1 = true) (hls' : ∀ l ∈ ls', isName false l.1 = true)
    (h : writeLabels escape ls ++ 125 :: x = writeLabels escape ls' ++ 125 :: y) :
    ls = ls' ∧ x = y := by
  have hclose {l : Text × Text} {u v w : Text} (hl : isName false l.1 = true) :
      125 :: u ≠ writeLabel escape l ++ v ++ w := by
    intro heq
    cases hname : l.1 with
    | nil => simp [hname, isName] at hl
    | cons b rest =>
      rw [writeLabel, hname] at heq
      refine notMem_of_isName hl (b := 125) (by decide) ?_
      rw [hname, (List.cons.inj heq).1]
      exact List.mem_cons_self
  cases ls with
  | nil =>
    cases ls' with
    | nil => exact ⟨rfl, (List.cons.inj h).2⟩
    | cons l' ls' => exact absurd h (hclose (hls' l' List.mem_cons_self))
  | cons l ls =>
    cases ls' with
    | nil => exact absurd h.symm (hclose (hls l List.mem_cons_self))
    | cons l' ls' =>
      rw [writeLabels, writeLabels, List.append_assoc, List.append_assoc] at h
      rw [List.forall_mem_cons] at hls hls'
      obtain ⟨rfl, hrest⟩ := writeLabel_append_inj hls.1 hls'.1 h
      obtain ⟨rfl, hxy⟩ := moreLabels_append_inj hls.2 hls'.2 hrest
      exact ⟨rfl, hxy⟩

/-- The parts of a line can be told from its text. -/
theorem Line.write_injOn {x y : Line} (hx : x.Formed) (hy : y.Formed)
    (h : x.write escape = y.write escape) : x = y := by
  have hhash {t : Text} {s : Sample} (ht : (Line.comment t).Formed) (hs : (Line.sample s).Formed) :
      (Line.comment t).write escape ≠ (Line.sample s).write escape := by
    intro heq
    have hhead : t.head? = (s.name ++ 123 ::
        (writeLabels escape s.labels ++ 125 :: 32 :: s.value)).head? := congrArg List.head? heq
    cases hname : s.name with
    | nil => simp [hname, Formed, isName] at hs
    | cons b rest =>
      rw [ht.1, hname] at hhead
      refine notMem_of_isName hs.1 (b := 35) (by decide) ?_
      rw [hname, Option.some.inj hhead]
      exact List.mem_cons_self
  cases x with
  | comment t =>
    cases y with
    | comment t' => exact congrArg _ h
    | sample s' => exact absurd h (hhash hx hy)
  | sample s =>
    cases y with
    | comment t' => exact absurd h.symm (hhash hy hx)
    | sample s' =>
      rw [write, write] at h
      obtain ⟨hname, hrest⟩ := append_cons_inj (notMem_of_isName hx.1 (b := 123) (by decide))
        (notMem_of_isName hy.1 (by decide)) h
      obtain ⟨hlabels, hvalue⟩ := writeLabels_append_inj hx.2.1 hy.2.1 hrest
      cases s
      cases s'
      simp_all

theorem newline_notMem_writeLabel {l : Text × Text} (hl : isName false l.1 = true) :
    10 ∉ writeLabel escape l := by
  have hname : 10 ∉ l.1 := notMem_of_isName hl (by decide)
  simp [writeLabel, hname, newline_notMem_escape]

/-- A line is one line. -/
theorem Line.newline_notMem_write {x : Line} (hx : x.Formed) : 10 ∉ x.write escape := by
  cases x with
  | comment t => exact hx.2.1
  | sample s =>
    obtain ⟨hname, hlabels, hvalue⟩ := hx
    have hn : 10 ∉ s.name := notMem_of_isName hname (by decide)
    have hv : 10 ∉ s.value := newline_notMem_of_isNumber hvalue
    have hl : 10 ∉ writeLabels escape s.labels := by
      cases hls : s.labels with
      | nil => exact List.not_mem_nil
      | cons l ls =>
        rw [hls, List.forall_mem_cons] at hlabels
        rw [writeLabels, List.mem_append, List.mem_flatMap]
        rintro (hmem | ⟨l', hl', hmem⟩)
        · exact newline_notMem_writeLabel hlabels.1 hmem
        · rcases List.mem_cons.mp hmem with hnew | hmem
          · exact absurd hnew (by decide)
          · exact newline_notMem_writeLabel (hlabels.2 l' hl') hmem
    simp [write, hn, hv, hl]

/-- **Unique reading.** A text has at most one content. -/
theorem Reads.unique {b : Text} {l l' : List Line} (h : Reads b l) (h' : Reads b l') : l = l' := by
  obtain ⟨hvalid, rfl⟩ := h
  obtain ⟨hvalid', heq⟩ := h'
  induction l generalizing l' with
  | nil =>
    cases l' with
    | nil => rfl
    | cons y l' => simp [write] at heq
  | cons x l ih =>
    cases l' with
    | nil => simp [write] at heq
    | cons y l' =>
      rw [List.forall_mem_cons] at hvalid hvalid'
      simp only [write, List.flatMap_cons, List.append_assoc, List.singleton_append] at heq
      obtain ⟨hline, hrest⟩ := append_cons_inj (Line.newline_notMem_write hvalid.1.1)
        (Line.newline_notMem_write hvalid'.1.1) heq
      rw [Line.write_injOn hvalid.1.1 hvalid'.1.1 hline, ih hvalid.2 hvalid'.2 hrest]

/-! ### Writing without quotes -/

/-- The number of bytes of a line that need a backslash. -/
def Line.specials : Line → ℕ
  | .comment _ => 0
  | .sample s => (s.labels.map fun l => l.2.countP special).sum

theorem Line.specials_eq_zero {x : Line} : x.specials = 0 ↔ x.Values Plain := by
  cases x with
  | comment => exact iff_of_true rfl trivial
  | sample s =>
    rw [specials, List.sum_eq_zero_iff, List.forall_mem_map]
    exact forall₂_congr fun l _ => countP_special_eq_zero

theorem length_writeLabel (l : Text × Text) : (writeLabel escape l).length =
    (writeLabel id l).length + l.2.countP special := by
  simp only [writeLabel, List.length_append, List.length_cons, length_escape, id_eq]
  omega

theorem Line.length_write (x : Line) :
    (x.write escape).length = (x.write id).length + x.specials := by
  cases x with
  | comment => rfl
  | sample s =>
    have hmore (ls : List (Text × Text)) :
        (ls.flatMap fun l => 44 :: writeLabel escape l).length =
          (ls.flatMap fun l => 44 :: writeLabel id l).length +
            (ls.map fun l => l.2.countP special).sum := by
      induction ls with
      | nil => rfl
      | cons l ls ih =>
        simp only [List.flatMap_cons, List.length_append, List.length_cons, ih, length_writeLabel,
          List.map_cons, List.sum_cons]
        omega
    have hlabels : (writeLabels escape s.labels).length = (writeLabels id s.labels).length +
        (s.labels.map fun l => l.2.countP special).sum := by
      cases s.labels with
      | nil => rfl
      | cons l ls =>
        simp only [writeLabels, List.length_append, hmore, length_writeLabel, List.map_cons,
          List.sum_cons]
        omega
    simp only [write, List.length_append, List.length_cons, hlabels, specials]
    omega

theorem length_write (l : List Line) :
    (write escape l).length = (write id l).length + (l.map Line.specials).sum := by
  induction l with
  | nil => rfl
  | cons x l ih =>
    simp only [write, List.flatMap_cons, List.length_append, List.map_cons, List.sum_cons,
      Line.length_write] at ih ⊢
    omega

theorem Line.write_of_plain {x : Line} (h : x.Values Plain) : x.write escape = x.write id := by
  cases x with
  | comment => rfl
  | sample s =>
    have hlabel : ∀ l ∈ s.labels, writeLabel escape l = writeLabel id l := fun l hl => by
      rw [writeLabel, writeLabel, escape_of_plain (h l hl), id]
    have hlabels : writeLabels escape s.labels = writeLabels id s.labels := by
      cases hls : s.labels with
      | nil => rfl
      | cons l ls =>
        rw [hls, List.forall_mem_cons] at hlabel
        rw [writeLabels, writeLabels, hlabel.1]
        exact congrArg _ (List.flatMap_congr fun l' hl' => congrArg _ (hlabel.2 l' hl'))
    rw [write, write, hlabels]

/-- **Pages without quoting.** A page written without quoting is the page with it if and only if
no value of a label has anything to quote. -/
theorem write_id_eq_iff (l : List Line) :
    write id l = write escape l ↔ ∀ x ∈ l, x.Values Plain := by
  constructor
  · intro h
    have hlen := length_write l
    rw [← h] at hlen
    have hzero : (l.map Line.specials).sum = 0 := by omega
    rw [List.sum_eq_zero_iff, List.forall_mem_map] at hzero
    exact fun x hx => Line.specials_eq_zero.mp (hzero x hx)
  · intro h
    exact List.flatMap_congr fun x hx => by rw [Line.write_of_plain (h x hx)]

/-- A byte that quoting does not add is in a page if it is there without quoting. -/
theorem mem_write_escape {b : UInt8} (hb : b ≠ 92 ∧ b ≠ 110) {l : List Line}
    (h : b ∈ write escape l) : b ∈ write id l := by
  have hlabel {x : Text × Text} (hx : b ∈ writeLabel escape x) : b ∈ writeLabel id x := by
    have hvalue : b ∈ escape x.2 → b ∈ x.2 := fun hmem =>
      (mem_escape hmem).resolve_right (not_or_intro hb.1 hb.2)
    simp only [writeLabel, List.mem_append, List.mem_cons, id_eq] at hx ⊢
    tauto
  obtain ⟨x, hx, hmem⟩ := List.mem_flatMap.mp h
  refine List.mem_flatMap.mpr ⟨x, hx, ?_⟩
  cases x with
  | comment => exact hmem
  | sample s =>
    have hlabels : b ∈ writeLabels escape s.labels → b ∈ writeLabels id s.labels := by
      cases s.labels with
      | nil => exact id
      | cons l ls =>
        simp only [writeLabels, List.mem_append, List.mem_flatMap, List.mem_cons]
        rintro (hmem | ⟨l', hl', hcomma | hmem⟩)
        · exact .inl (hlabel hmem)
        · exact .inr ⟨l', hl', .inl hcomma⟩
        · exact .inr ⟨l', hl', .inr (hlabel hmem)⟩
    simp only [Line.write, List.mem_append, List.mem_cons] at hmem ⊢
    tauto

/-! ### Series -/

/-- The series that a sample belongs to: the name of its metric and its set of labels. -/
abbrev Series := Text × Finset (Text × Text)

def Line.series : Line → Option Series
  | .comment _ => none
  | .sample s => some (s.name, s.labels.toFinset)

/-- The series of the samples of a page, in order. -/
def series (l : List Line) : List Series := l.filterMap Line.series

theorem series_flatMap {α : Type*} (l : List α) (f : α → List Line) :
    series (l.flatMap f) = l.flatMap fun a => series (f a) :=
  List.filterMap_flatMap

theorem series_append (l l' : List Line) : series (l ++ l') = series l ++ series l' :=
  List.filterMap_append

/-- The samples are of one metric and of different series. -/
structure OneMetric (name : Text) (l : List Line) : Prop where
  name_eq : ∀ x ∈ series l, x.1 = name
  nodup : (series l).Nodup

theorem OneMetric.of_series_eq_nil {l : List Line} (h : series l = []) (name : Text) :
    OneMetric name l := by
  constructor
  · rw [h]
    exact List.forall_mem_nil _
  · rw [h]
    exact List.nodup_nil

/-- Lines without samples in front. -/
theorem OneMetric.append {name : Text} {l l' : List Line} (h : series l = [])
    (h' : OneMetric name l') : OneMetric name (l ++ l') := by
  have heq : series (l ++ l') = series l' := by rw [series_append, h, List.nil_append]
  constructor
  · rw [heq]
    exact h'.name_eq
  · rw [heq]
    exact h'.nodup

/-- The samples of one metric for the elements of a list. -/
theorem OneMetric.flatMap {α : Type*} {name : Text} {l : List α} {f : α → List Line}
    (hl : l.Nodup) (h : ∀ a ∈ l, OneMetric name (f a))
    (hinj : ∀ a ∈ l, ∀ b ∈ l, ∀ x, x ∈ series (f a) → x ∈ series (f b) → a = b) :
    OneMetric name (l.flatMap f) := by
  constructor
  · rw [series_flatMap]
    intro x hx
    obtain ⟨a, ha, hx⟩ := List.mem_flatMap.mp hx
    exact (h a ha).name_eq x hx
  · rw [series_flatMap, List.nodup_flatMap]
    refine ⟨fun a ha => (h a ha).nodup, hl.pairwise_of_forall_ne fun a ha b hb hne => ?_⟩
    intro x hx hx'
    exact hne (hinj a ha b hb x hx hx')

theorem OneMetric.map {α : Type*} {name : Text} {l : List α} {f : α → Line} (hl : l.Nodup)
    (h : ∀ a ∈ l, OneMetric name [f a])
    (hinj : ∀ a ∈ l, ∀ b ∈ l, ∀ x, x ∈ series [f a] → x ∈ series [f b] → a = b) :
    OneMetric name (l.map f) := by
  rw [List.map_eq_flatMap]
  exact OneMetric.flatMap hl h hinj

/-- **Metrics apart.** A page that has the samples of each metric together, for metrics with
different names, has no series twice. -/
theorem nodup_series_flatMap {bs : List (Text × List Line)} (hnames : (bs.map Prod.fst).Nodup)
    (h : ∀ b ∈ bs, OneMetric b.1 b.2) : (series (bs.flatMap Prod.snd)).Nodup := by
  induction bs with
  | nil => exact List.nodup_nil
  | cons b bs ih =>
    rw [List.map_cons, List.nodup_cons] at hnames
    obtain ⟨hb, hbs⟩ := List.forall_mem_cons.mp h
    rw [List.flatMap_cons, series_append, List.nodup_append]
    refine ⟨hb.nodup, ih hnames.2 hbs, fun x hx y hy hxy => hnames.1 ?_⟩
    rw [series_flatMap] at hy
    obtain ⟨b', hb', hy'⟩ := List.mem_flatMap.mp hy
    rw [← hb.name_eq x hx, hxy, (hbs b' hb').name_eq y hy']
    exact List.mem_map_of_mem hb'

end Exposition
