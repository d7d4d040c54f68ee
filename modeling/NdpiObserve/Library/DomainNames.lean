import Mathlib

/-!
# Tables of domains

A table lists domains with the answer for the names below them. A name should get the answer of
the most specific domain of the table that it is at or below. A search that takes the first
domain of the table that occurs anywhere in the name does this for some names only; for a table
that keeps equal answers together, this file says for which.

## Main definitions

* `DomainTable.Below`: the name is the domain or is below it.
* `DomainTable.MostSpecific`: the most specific domain of the table for a name.
* `DomainTable.firstOccurring`: the search by occurrence.
* `DomainTable.Unambiguous`: no other answer gets in the way of the most specific domain.

## Main results

* `DomainTable.respects_iff_unambiguous`: the names on which the search is right.
-/

namespace DomainTable

open scoped List

variable {α β : Type*}

/-! ### Names and domains -/

/-- The name is the domain, or ends with a dot and the domain. -/
def Below (dot : α) (name dom : List α) : Prop := name = dom ∨ dot :: dom <:+ name

instance [DecidableEq α] (dot : α) (name dom : List α) : Decidable (Below dot name dom) :=
  inferInstanceAs (Decidable (_ ∨ _))

/-- The entry of the table with the longest domain that the name is at or below. -/
structure MostSpecific (dot : α) (table : List (List α × β)) (name : List α) (t : List α × β) :
    Prop where
  mem : t ∈ table
  below : Below dot name t.1
  longest : ∀ u ∈ table, Below dot name u.1 → u.1.length ≤ t.1.length

variable {dot : α} {table : List (List α × β)} {name dom : List α} {t u : List α × β}

theorem Below.isSuffix (h : Below dot name dom) : dom <:+ name := by
  rcases h with rfl | h
  · exact List.suffix_rfl
  · exact (List.suffix_cons dot dom).trans h

theorem Below.isInfix (h : Below dot name dom) : dom <:+: name := h.isSuffix.isInfix

/-- The most specific entry is unique when every domain is listed once. -/
theorem MostSpecific.eq (hkeys : (table.map Prod.fst).Nodup) (ht : MostSpecific dot table name t)
    (hu : MostSpecific dot table name u) : t = u := by
  have hlen : t.1.length = u.1.length :=
    (hu.longest t ht.mem ht.below).antisymm (ht.longest u hu.mem hu.below)
  have hdom : t.1 = u.1 :=
    (List.suffix_of_suffix_length_le ht.below.isSuffix hu.below.isSuffix hlen.le).eq_of_length hlen
  exact List.inj_on_of_nodup_map hkeys ht.mem hu.mem hdom

/-! ### Tables that keep equal answers together -/

/-- An answer that comes again comes at once. -/
def Grouped : List β → Prop
  | [] => True
  | b :: l => (b ∈ l → l.head? = some b) ∧ Grouped l

instance decidableGrouped [DecidableEq β] : (l : List β) → Decidable (Grouped l)
  | [] => isTrue trivial
  | _ :: l => @instDecidableAnd _ _ _ (decidableGrouped l)

/-- Before the last of the first answers there is no other one. -/
theorem Grouped.eq_of_sublist_cons {a b : β} {l : List β} (h : Grouped (a :: l))
    (hab : [b, a] <+ a :: l) : b = a := by
  induction l with
  | nil =>
    have hlen := hab.length_le
    simp at hlen
  | cons c l ih =>
    rcases List.sublist_cons_iff.mp hab with hab | ⟨l', heq, -⟩
    · have hmem : a ∈ c :: l := hab.subset (by simp)
      have hc : c = a := Option.some.inj (h.1 hmem)
      subst hc
      exact ih h.2 hab
    · exact (List.cons.inj heq).1

/-- Between two equal answers there is no other one. -/
theorem Grouped.eq_of_sublist {a b : β} {l : List β} (h : Grouped l) (hab : [a, b, a] <+ l) :
    b = a := by
  induction l with
  | nil => cases hab
  | cons c l ih =>
    rcases List.sublist_cons_iff.mp hab with hab | ⟨l', heq, hl'⟩
    · exact ih h.2 hab
    · obtain ⟨rfl, rfl⟩ := List.cons.inj heq
      have hmem : a ∈ l := hl'.subset (by simp)
      obtain ⟨d, rest, rfl⟩ := List.exists_cons_of_ne_nil (List.ne_nil_of_mem hmem)
      have hd : d = a := Option.some.inj (h.1 hmem)
      subst hd
      exact h.2.eq_of_sublist_cons hl'

/-! ### The search -/

/-- The first entry that occurs is at the head of those that occur. -/
theorem cons_sublist_of_find? {p : List α × β → Bool} {l : List (List α × β)}
    (ht : table.find? p = some t) (hu : u :: l <+ table) (hp : p u) :
    u = t ∨ t :: u :: l <+ table := by
  obtain ⟨-, l₁, l₂, rfl, hnone⟩ := List.find?_eq_some_iff_append.mp ht
  have hrest : u :: l <+ t :: l₂ := by
    obtain ⟨k₁, k₂, heq, hk₁, hk₂⟩ := List.sublist_append_iff.mp hu
    cases k₁ with
    | nil =>
      rw [List.nil_append] at heq
      rwa [heq]
    | cons v k₁ =>
      obtain ⟨rfl, -⟩ := List.cons.inj heq
      have hno := hnone u (hk₁.subset List.mem_cons_self)
      simp [hp] at hno
  rcases List.sublist_cons_iff.mp hrest with hrest | ⟨l', heq, -⟩
  · exact .inr ((hrest.cons_cons t).trans (List.sublist_append_right l₁ _))
  · exact .inl (List.cons.inj heq).1

variable [DecidableEq α]

/-- The answer of the first domain of the table that occurs in the name. -/
def firstOccurring (table : List (List α × β)) (name : List α) : Option β :=
  (table.find? fun t => t.1 <:+: name).map Prod.snd

/-- Nothing listed occurs in the name, or the name is at or below a listed domain, and those that
occur in it and stand before the most specific of these have the same answer. -/
def Unambiguous (dot : α) (table : List (List α × β)) (name : List α) : Prop :=
  (∀ u ∈ table, ¬u.1 <:+: name) ∨
    ∃ t, MostSpecific dot table name t ∧ ∀ u, [u, t] <+ table → u.1 <:+: name → u.2 = t.2

/-- The search answers like the entry `t` if and only if no other answer occurs before `t`. -/
theorem firstOccurring_eq_iff (hgroups : Grouped (table.map Prod.snd)) (hmem : t ∈ table)
    (hin : t.1 <:+: name) : firstOccurring table name = some t.2 ↔
      ∀ u, [u, t] <+ table → u.1 <:+: name → u.2 = t.2 := by
  have hsingle : [t] <+ table := List.singleton_sublist.mpr hmem
  cases hfirst : table.find? fun t => t.1 <:+: name with
  | none =>
    have hno := List.find?_eq_none.mp hfirst t hmem
    simp [hin] at hno
  | some v =>
    have hfound : firstOccurring table name = some v.2 := by rw [firstOccurring, hfirst]; rfl
    have hv : v.1 <:+: name := by simpa using List.find?_some hfirst
    rw [hfound, Option.some.injEq]
    constructor
    · intro hvt u hut hu
      rcases cons_sublist_of_find? hfirst hut (by simpa using hu) with rfl | hvut
      · exact hvt
      · have hanswers : [v.2, u.2, t.2] <+ table.map Prod.snd := hvut.map Prod.snd
        rw [hvt] at hanswers
        exact hgroups.eq_of_sublist hanswers
    · intro hclear
      rcases cons_sublist_of_find? hfirst hsingle (by simpa using hin) with rfl | hvt
      · rfl
      · exact hclear v hvt hv

/-- **When the search is right.** It answers for the names at or below a listed domain, with the
answer of the most specific one, exactly on the unambiguous names. -/
theorem respects_iff_unambiguous (dot : α) (hkeys : (table.map Prod.fst).Nodup)
    (hgroups : Grouped (table.map Prod.snd)) (name : List α) :
    (∀ b, firstOccurring table name = some b ↔ ∃ t, MostSpecific dot table name t ∧ t.2 = b) ↔
      Unambiguous dot table name := by
  constructor
  · intro h
    cases hfound : firstOccurring table name with
    | none =>
      refine .inl fun u hu hin => ?_
      have hno := List.find?_eq_none.mp (Option.map_eq_none_iff.mp hfound) u hu
      simp [hin] at hno
    | some b =>
      obtain ⟨t, ht, rfl⟩ := (h b).mp hfound
      exact .inr ⟨t, ht, (firstOccurring_eq_iff hgroups ht.mem ht.below.isInfix).mp hfound⟩
  · rintro (hnone | ⟨t, ht, hclear⟩)
    · intro b
      have hfound : firstOccurring table name = none := by
        rw [firstOccurring, List.find?_eq_none.mpr fun u hu => by simpa using hnone u hu]
        rfl
      rw [hfound]
      refine ⟨fun heq => absurd heq.symm (Option.some_ne_none b), ?_⟩
      rintro ⟨t, ht, -⟩
      exact absurd ht.below.isInfix (hnone t ht.mem)
    · intro b
      have hfound := (firstOccurring_eq_iff hgroups ht.mem ht.below.isInfix).mpr hclear
      rw [hfound, Option.some.injEq]
      refine ⟨fun heq => ⟨t, ht, heq⟩, ?_⟩
      rintro ⟨u, hu, rfl⟩
      rw [ht.eq hkeys hu]

/-- The same for a search with a default that no entry answers. -/
theorem getD_respects_iff_unambiguous (dot : α) {d : β} (hd : d ∉ table.map Prod.snd)
    (hkeys : (table.map Prod.fst).Nodup) (hgroups : Grouped (table.map Prod.snd))
    (name : List α) :
    (∀ b, b ≠ d → ((firstOccurring table name).getD d = b ↔
      ∃ t, MostSpecific dot table name t ∧ t.2 = b)) ↔ Unambiguous dot table name := by
  have hsome {b : β} (hb : b ≠ d) :
      (firstOccurring table name).getD d = b ↔ firstOccurring table name = some b := by
    cases firstOccurring table name with
    | none =>
      exact ⟨fun heq => absurd heq.symm hb, fun heq => absurd heq.symm (Option.some_ne_none b)⟩
    | some c => exact Option.some.injEq c b ▸ Iff.rfl
  rw [← respects_iff_unambiguous dot hkeys hgroups name]
  refine ⟨fun h b => ?_, fun h b hb => (hsome hb).trans (h b)⟩
  rcases eq_or_ne b d with rfl | hb
  · constructor
    · intro hfound
      obtain ⟨t, ht, rfl⟩ := Option.map_eq_some_iff.mp hfound
      exact absurd (List.mem_map_of_mem (List.mem_of_find?_eq_some ht)) hd
    · rintro ⟨t, ht, rfl⟩
      exact absurd (List.mem_map_of_mem ht.mem) hd
  · exact (hsome hb).symm.trans (h b hb)

end DomainTable
