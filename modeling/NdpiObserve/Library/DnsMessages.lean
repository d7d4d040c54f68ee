import Mathlib

/-!
# The wire format of DNS messages

Names, questions, resource records and messages, and the bytes that stand for them. A name is a list
of labels of 1 to 63 bytes each; on the wire each label follows its length, and a zero byte ends
the name. The owner of a record may end in a pointer instead. Numbers stand with their high bytes
first.

## Main definitions

* `Dns.Name`, `Dns.Owner`: names, and owners of records.
* `Dns.dotted`: the text of a name.
* `Dns.Question`, `Dns.Record`, `Dns.Message`: the parts of a message, each with its `wire`.
* `Dns.RawName`: the bytes that a reader passes which knows neither the limit of a label nor that of
  a name.

## Main results

* `Dns.rawName_wire`, `Dns.Owner.rawName_wire`: such a reader passes every name and every owner.
-/

namespace Dns

/-! ### Numbers -/

def word16 (x : UInt16) : List UInt8 := [(x >>> 8).toUInt8, x.toUInt8]

def word32 (x : UInt32) : List UInt8 :=
  [(x >>> 24).toUInt8, (x >>> 16).toUInt8, (x >>> 8).toUInt8, x.toUInt8]

/-! ### Names -/

/-- A label has 1 to 63 bytes. -/
structure Label where
  bytes : List UInt8
  pos : 0 < bytes.length
  le : bytes.length ≤ 63

def Label.wire (l : Label) : List UInt8 := UInt8.ofNat l.bytes.length :: l.bytes

/-- Labels one after another, without an end. -/
def labelsWire (ls : List Label) : List UInt8 := ls.flatMap Label.wire

/-- A name takes at most 255 bytes, with the byte that ends it. -/
structure Name where
  labels : List Label
  le : (labelsWire labels).length + 1 ≤ 255

def Name.wire (n : Name) : List UInt8 := labelsWire n.labels ++ [0]

/-- The labels, each after a dot. -/
def dotLabels (ls : List Label) : List UInt8 := ls.flatMap fun l => 46 :: l.bytes

/-- The text of a name: its labels with dots between them. -/
def dotted (ls : List Label) : List UInt8 := List.intercalate [46] (ls.map Label.bytes)

theorem Label.toNat_length (l : Label) : (UInt8.ofNat l.bytes.length).toNat = l.bytes.length := by
  have hle := l.le
  rw [UInt8.toNat_ofNat']
  omega

@[simp] theorem Label.length_wire (l : Label) : l.wire.length = l.bytes.length + 1 := rfl

@[simp] theorem labelsWire_nil : labelsWire [] = [] := rfl

theorem labelsWire_cons (l : Label) (ls : List Label) :
    labelsWire (l :: ls) = l.wire ++ labelsWire ls := List.flatMap_cons

@[simp] theorem dotted_nil : dotted [] = [] := rfl

theorem dotLabels_cons (l : Label) (ls : List Label) :
    dotLabels (l :: ls) = 46 :: (l.bytes ++ dotLabels ls) := List.flatMap_cons

theorem dotted_cons (l : Label) (ls : List Label) :
    dotted (l :: ls) = l.bytes ++ dotLabels ls := by
  induction ls generalizing l with
  | nil => simp [dotted, dotLabels]
  | cons l' ls ih =>
    have hsplit : dotted (l :: l' :: ls) = l.bytes ++ 46 :: dotted (l' :: ls) := by
      rw [dotted, dotted, List.map_cons, List.map_cons, List.intercalate_cons_cons,
        List.append_assoc]
      rfl
    rw [hsplit, ih, dotLabels_cons]

/-! ### Messages -/

/-- The two bytes of a pointer to an offset in the message. -/
def pointerWire (target : Fin (2 ^ 14)) : List UInt8 :=
  [UInt8.ofNat (192 + target.val / 256), UInt8.ofNat (target.val % 256)]

/-- The owner of a record: a name, or labels, if any, that end in a pointer. -/
inductive Owner where
  | name (n : Name)
  | pointer (ls : List Label) (target : Fin (2 ^ 14))

def Owner.wire : Owner → List UInt8
  | .name n => n.wire
  | .pointer ls target => labelsWire ls ++ pointerWire target

structure Question where
  name : Name
  qtype : UInt16
  qclass : UInt16

def Question.wire (q : Question) : List UInt8 := q.name.wire ++ (word16 q.qtype ++ word16 q.qclass)

structure Record where
  owner : Owner
  type : UInt16
  cls : UInt16
  ttl : UInt32
  rdata : List UInt8
  rdata_lt : rdata.length < 2 ^ 16

/-- The ten bytes between the owner of a record and its data. -/
def Record.fields (r : Record) : List UInt8 :=
  word16 r.type ++ word16 r.cls ++ word32 r.ttl ++ word16 (UInt16.ofNat r.rdata.length)

def Record.wire (r : Record) : List UInt8 := r.owner.wire ++ (r.fields ++ r.rdata)

structure Message where
  id : UInt16
  flags : UInt16
  questions : List Question
  answers : List Record
  authority : List Record
  additional : List Record
  questions_lt : questions.length < 2 ^ 16
  answers_lt : answers.length < 2 ^ 16

def recordsWire (rs : List Record) : List UInt8 := rs.flatMap Record.wire

namespace Message

def header (m : Message) : List UInt8 :=
  word16 m.id ++ word16 m.flags ++ word16 (UInt16.ofNat m.questions.length) ++
    word16 (UInt16.ofNat m.answers.length) ++ word16 (UInt16.ofNat m.authority.length) ++
    word16 (UInt16.ofNat m.additional.length)

/-- The question section. -/
def questionsWire (m : Message) : List UInt8 := m.questions.flatMap Question.wire

def wire (m : Message) : List UInt8 :=
  m.header ++ (m.questionsWire ++ (recordsWire m.answers ++
    (recordsWire m.authority ++ recordsWire m.additional)))

/-- The bit of a response. -/
def IsResponse (m : Message) : Prop := m.flags &&& 0x8000 ≠ 0

end Message

/-! ### Names for a careless reader -/

/-- The two top bits of a length mark a pointer. -/
def IsPointer (n : UInt8) : Prop := n &&& 0xC0 = 0xC0

/-- Labels of any length whose two top bits are not both set, and then a zero byte, or the first
byte of a pointer with one more byte. -/
inductive RawName : List UInt8 → Prop
  | zero : RawName [0]
  | pointer (n b : UInt8) (h : IsPointer n) : RawName [n, b]
  | label (n : UInt8) (bytes rest : List UInt8) (hpos : n ≠ 0) (hplain : ¬IsPointer n)
    (hlen : bytes.length = n.toNat) (h : RawName rest) : RawName (n :: (bytes ++ rest))

/-- The length of a label is neither zero nor a pointer. -/
theorem Label.length_ne_zero (l : Label) : UInt8.ofNat l.bytes.length ≠ 0 := by
  intro h
  have hpos := l.pos
  have hlen := l.toNat_length
  rw [h] at hlen
  exact absurd hlen (by rw [UInt8.toNat_zero]; omega)

theorem not_isPointer_of_lt {n : UInt8} (h : n.toNat < 64) : ¬IsPointer n := by
  have hall : ∀ n : UInt8, n.toNat < 64 → ¬(n &&& 0xC0 = 0xC0) := by decide +kernel
  exact hall n h

theorem Label.not_isPointer_length (l : Label) : ¬IsPointer (UInt8.ofNat l.bytes.length) := by
  refine not_isPointer_of_lt ?_
  have hle := l.le
  rw [l.toNat_length]
  omega

theorem rawName_labels {rest : List UInt8} (h : RawName rest) (ls : List Label) :
    RawName (labelsWire ls ++ rest) := by
  induction ls with
  | nil => exact h
  | cons l ls ih =>
    rw [labelsWire_cons, List.append_assoc]
    exact .label _ _ _ l.length_ne_zero l.not_isPointer_length l.toNat_length.symm ih

theorem rawName_wire (n : Name) : RawName n.wire := rawName_labels .zero n.labels

theorem isPointer_pointerWire (target : Fin (2 ^ 14)) :
    IsPointer (UInt8.ofNat (192 + target.val / 256)) := by
  have hall : ∀ n : UInt8, 192 ≤ n.toNat → n &&& 0xC0 = 0xC0 := by decide +kernel
  refine hall _ ?_
  have hlt := target.isLt
  rw [UInt8.toNat_ofNat']
  omega

theorem Owner.rawName_wire (o : Owner) : RawName o.wire := by
  cases o with
  | name n => exact Dns.rawName_wire n
  | pointer ls target => exact rawName_labels (.pointer _ _ (isPointer_pointerWire target)) ls

theorem RawName.length_pos {s : List UInt8} (h : RawName s) : 0 < s.length := by
  cases h <;> simp

end Dns
