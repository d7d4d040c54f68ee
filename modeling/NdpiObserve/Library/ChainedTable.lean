import Mathlib

/-!
# Chained hash tables

A chained hash table has `n` buckets, each a list of entries; an entry `e` with key `key e`
belongs in the bucket `hash (key e)`. The key function, the hash and the number of buckets are
arbitrary. A table whose buckets are well formed (`ChainedTable.WellFormed`) is a finite map
from keys to entries: `lookup` reads the map, and the multiset `entries` lists its values, so
that counting and summing over the stored entries does not depend on the chains.

## Main definitions

* `ChainedTable.entries`: all entries, as a multiset.
* `ChainedTable.lookup`, `ChainedTable.push`, `ChainedTable.replace`, `ChainedTable.remove`,
  `ChainedTable.retain`: the operations on buckets.
* `ChainedTable.WellFormed`: entries sit in the bucket of their hash, and no bucket has two
  entries with one key.

## Main results

* `ChainedTable.WellFormed.lookup_eq_some_iff`: `lookup` finds exactly the stored entries.
* `ChainedTable.WellFormed.nodup_keys`: no two entries of the whole table have one key.
* `ChainedTable.WellFormed.lookup_push`, `lookup_replace`, `lookup_remove`, `lookup_retain`:
  the operations on the finite map.
* `ChainedTable.entries_push`, `ChainedTable.WellFormed.exists_entries_replace`,
  `entries_remove`, `entries_retain`: the operations on the multiset of entries.
-/

namespace ChainedTable

variable {κ ε : Type*} {n : ℕ}

/-! ### The multiset of entries -/

/-- All entries of the table. Irreducible, since unfolding the sum enumerates the buckets. -/
@[irreducible] def entries (b : Fin n → List ε) : Multiset ε := ∑ i, (b i : Multiset ε)

theorem mem_entries {b : Fin n → List ε} {e : ε} : e ∈ entries b ↔ ∃ i, e ∈ b i := by
  simp [entries, Multiset.mem_sum]

theorem card_entries (b : Fin n → List ε) : Multiset.card (entries b) = ∑ i, (b i).length := by
  simp [entries, Multiset.card_sum]

/-- A multiset with the entries of the other chains. -/
theorem exists_entries_eq_add (b : Fin n → List ε) (i : Fin n) :
    ∃ R : Multiset ε, ∀ l, entries (Function.update b i l) = (l : Multiset ε) + R := by
  refine ⟨∑ j ∈ Finset.univ.erase i, (b j : Multiset ε), fun l => ?_⟩
  rw [entries, ← Finset.add_sum_erase _ _ (Finset.mem_univ i), Function.update_self]
  congr 1
  exact Finset.sum_congr rfl fun j hj => by rw [Function.update_of_ne (Finset.ne_of_mem_erase hj)]

/-- The entries are the concatenation of the chains in the order of the buckets. -/
theorem coe_flatMap_finRange (b : Fin n → List ε) :
    (((List.finRange n).flatMap b : List ε) : Multiset ε) = entries b := by
  have h (l : List (Fin n)) : ((l.flatMap b : List ε) : Multiset ε) =
      (l.map fun i => (b i : Multiset ε)).sum := by
    induction l with
    | nil => rfl
    | cons i l ih => rw [List.flatMap_cons, ← Multiset.coe_add, ih, List.map_cons, List.sum_cons]
  rw [h, entries, Fin.sum_univ_def]

@[simp] theorem entries_empty : entries (fun _ : Fin n => ([] : List ε)) = 0 := by
  simp [entries]

/-! ### Well formed tables -/

variable (key : ε → κ) (hash : κ → Fin n)

/-- Entries sit in the bucket of their hash, and the keys of a chain are distinct. -/
structure WellFormed (b : Fin n → List ε) : Prop where
  placed : ∀ i, ∀ e ∈ b i, hash (key e) = i
  nodup : ∀ i, ((b i).map key).Nodup

variable {key hash} {b : Fin n → List ε}

theorem wellFormed_empty : WellFormed key hash fun _ => [] :=
  ⟨fun _ _ h => absurd h List.not_mem_nil, fun _ => List.nodup_nil⟩

theorem WellFormed.update (h : WellFormed key hash b) (i : Fin n) {l : List ε}
    (hl : ∀ e ∈ l, hash (key e) = i) (hn : (l.map key).Nodup) :
    WellFormed key hash (Function.update b i l) where
  placed j e he := by
    rcases eq_or_ne j i with rfl | hj
    · exact hl e (by simpa using he)
    · exact h.placed j e (by simpa [Function.update_of_ne hj] using he)
  nodup j := by
    rcases eq_or_ne j i with rfl | hj
    · simpa using hn
    · simpa [Function.update_of_ne hj] using h.nodup j

theorem WellFormed.mem_entries_iff (h : WellFormed key hash b) {e : ε} :
    e ∈ entries b ↔ e ∈ b (hash (key e)) := by
  rw [mem_entries]
  refine ⟨?_, fun he => ⟨_, he⟩⟩
  rintro ⟨i, hi⟩
  rwa [h.placed i e hi]

/-- **No two entries of the table have one key.** -/
theorem WellFormed.nodup_keys (h : WellFormed key hash b) : ((entries b).map key).Nodup := by
  have hlist : (((List.finRange n).flatMap b).map key).Nodup := by
    rw [List.map_flatMap, List.nodup_flatMap]
    refine ⟨fun i _ => h.nodup i, (List.nodup_finRange n).imp_of_mem ?_⟩
    intro i j _ _ hij k hi hj
    obtain ⟨d, hd, rfl⟩ := List.mem_map.mp hi
    obtain ⟨e, he, hde⟩ := List.mem_map.mp hj
    exact hij ((h.placed i d hd).symm.trans ((congrArg hash hde.symm).trans (h.placed j e he)))
  rw [← coe_flatMap_finRange]
  simpa using hlist

/-! ### Retaining entries -/

/-- The entries satisfying `p`, in their chains. -/
def retain (p : ε → Bool) (b : Fin n → List ε) : Fin n → List ε :=
  fun i => (b i).filter p

theorem entries_retain (p : ε → Bool) (b : Fin n → List ε) :
    entries (retain p b) = (entries b).filter fun e => p e = true := by
  simp only [entries, retain]
  have h (s : Finset (Fin n)) : ∑ i ∈ s, (((b i).filter p : List ε) : Multiset ε) =
      (∑ i ∈ s, (b i : Multiset ε)).filter fun e => p e = true := by
    induction s using Finset.induction_on with
    | empty => simp
    | insert i s hi ih => rw [Finset.sum_insert hi, Finset.sum_insert hi, ih,
        Multiset.filter_add, Multiset.filter_coe]; simp
  exact h Finset.univ

theorem WellFormed.retain (h : WellFormed key hash b) (p : ε → Bool) :
    WellFormed key hash (retain p b) where
  placed i e he := h.placed i e (List.mem_of_mem_filter he)
  nodup i := (List.filter_sublist.map key).nodup (h.nodup i)

/-! ### Operations on buckets -/

section Operations

variable [DecidableEq κ] (key hash)

/-- The first entry with key `k` in the chain of `k`. -/
def lookup (b : Fin n → List ε) (k : κ) : Option ε :=
  (b (hash k)).find? fun e => key e = k

/-- `e` in front of the chain of its key. -/
def push (b : Fin n → List ε) (e : ε) : Fin n → List ε :=
  Function.update b (hash (key e)) (e :: b (hash (key e)))

/-- Every entry with the key of `e` exchanged for `e`. -/
def replace (b : Fin n → List ε) (e : ε) : Fin n → List ε :=
  Function.update b (hash (key e))
    ((b (hash (key e))).map fun d => if key d = key e then e else d)

/-- The first entry with key `k` taken out of its chain. -/
def remove (b : Fin n → List ε) (k : κ) : Fin n → List ε :=
  Function.update b (hash k) ((b (hash k)).eraseP fun e => key e = k)

variable {key hash}

/-! ### The table as a finite map -/

/-- In a chain with distinct keys, the first entry with a key is the only one. -/
theorem find?_key_eq_some_iff {l : List ε} (hn : (l.map key).Nodup) {k : κ} {e : ε} :
    (l.find? fun d => key d = k) = some e ↔ e ∈ l ∧ key e = k := by
  induction l with
  | nil => simp
  | cons d l ih =>
    have hd := (List.nodup_cons.mp (by simpa using hn : (key d :: l.map key).Nodup))
    by_cases hk : key d = k
    · have hno : e ∈ l → key e ≠ k := fun he hek =>
        hd.1 (List.mem_map.mpr ⟨e, he, hek.trans hk.symm⟩)
      simp only [List.find?_cons, hk, decide_true, Option.some.injEq, List.mem_cons]
      constructor
      · rintro rfl
        exact ⟨.inl rfl, hk⟩
      · rintro ⟨rfl | he, hek⟩
        · rfl
        · exact absurd hek (hno he)
    · simp only [List.find?_cons, hk, decide_false, List.mem_cons]
      rw [ih hd.2]
      refine ⟨fun ⟨he, hek⟩ => ⟨.inr he, hek⟩, ?_⟩
      rintro ⟨rfl | he, hek⟩
      · exact absurd hek hk
      · exact ⟨he, hek⟩

/-- **Lookup finds exactly the stored entries.** -/
theorem WellFormed.lookup_eq_some_iff (h : WellFormed key hash b) {k : κ} {e : ε} :
    lookup key hash b k = some e ↔ e ∈ entries b ∧ key e = k := by
  rw [lookup, find?_key_eq_some_iff (h.nodup _), h.mem_entries_iff]
  refine and_congr_left fun hk => ?_
  rw [hk]

theorem WellFormed.lookup_eq_none_iff (h : WellFormed key hash b) {k : κ} :
    lookup key hash b k = none ↔ ∀ e ∈ entries b, key e ≠ k := by
  rw [Option.eq_none_iff_forall_not_mem]
  refine forall_congr' fun e => ?_
  rw [Option.mem_def, h.lookup_eq_some_iff, not_and]

theorem WellFormed.key_lookup (h : WellFormed key hash b) {k : κ} {e : ε}
    (he : lookup key hash b k = some e) : key e = k :=
  (h.lookup_eq_some_iff.mp he).2

/-! ### Pushing an entry -/

omit [DecidableEq κ] in
theorem entries_push (e : ε) : entries (push key hash b e) = e ::ₘ entries b := by
  obtain ⟨R, hR⟩ := exists_entries_eq_add b (hash (key e))
  have hb := hR (b (hash (key e)))
  rw [Function.update_eq_self] at hb
  rw [push, hR, hb, ← Multiset.cons_coe, Multiset.cons_add]

theorem WellFormed.push (h : WellFormed key hash b) {e : ε}
    (he : lookup key hash b (key e) = none) : WellFormed key hash (push key hash b e) := by
  refine h.update _ ?_ ?_
  · intro d hd
    rcases List.mem_cons.mp hd with rfl | hd
    · rfl
    · exact h.placed _ d hd
  · refine List.nodup_cons.mpr ⟨fun hm => ?_, h.nodup _⟩
    obtain ⟨d, hd, hde⟩ := List.mem_map.mp hm
    exact h.lookup_eq_none_iff.mp he d (mem_entries.mpr ⟨_, hd⟩) hde

theorem lookup_push (e : ε) (k : κ) :
    lookup key hash (push key hash b e) k =
      if key e = k then some e else lookup key hash b k := by
  by_cases hk : key e = k
  · subst hk
    simp [lookup, ChainedTable.push]
  · rw [if_neg hk]
    by_cases hh : hash k = hash (key e)
    · simp [lookup, ChainedTable.push, hh, hk]
    · simp [lookup, ChainedTable.push, Function.update_of_ne hh]

/-! ### Replacing an entry -/

/-- Replacing an entry by one with its key keeps the keys of every chain. -/
theorem map_key_map_replace (l : List ε) (e : ε) :
    (l.map fun d => if key d = key e then e else d).map key = l.map key := by
  rw [List.map_map]
  refine List.map_congr_left fun d _ => ?_
  by_cases hd : key d = key e <;> simp [hd]

theorem WellFormed.replace (h : WellFormed key hash b) (e : ε) :
    WellFormed key hash (replace key hash b e) := by
  refine h.update _ ?_ ?_
  · intro d hd
    obtain ⟨c, hc, rfl⟩ := List.mem_map.mp hd
    by_cases hce : key c = key e
    · simp [hce]
    · simpa [hce] using h.placed _ c hc
  · rw [map_key_map_replace]
    exact h.nodup _

theorem card_entries_replace (e : ε) :
    Multiset.card (entries (ChainedTable.replace key hash b e)) = Multiset.card (entries b) := by
  rw [card_entries, card_entries]
  refine Finset.sum_congr rfl fun i _ => ?_
  by_cases hi : i = hash (key e)
  · subst hi
    simp [ChainedTable.replace]
  · simp [ChainedTable.replace, Function.update_of_ne hi]

theorem find?_map_replace_of_ne (l : List ε) (e : ε) {k : κ} (hk : key e ≠ k) :
    (l.map fun d => if key d = key e then e else d).find? (fun d => key d = k) =
      l.find? fun d => key d = k := by
  induction l with
  | nil => rfl
  | cons d l ih =>
    rw [List.map_cons, List.find?_cons, List.find?_cons, ih]
    by_cases hd : key d = key e
    · have hdk : ¬ key d = k := fun h => hk (hd.symm.trans h)
      simp [hd, hk]
    · simp [hd]

theorem find?_map_replace_self (l : List ε) (e : ε) :
    (l.map fun d => if key d = key e then e else d).find? (fun d => key d = key e) =
      (l.find? fun d => key d = key e).map fun _ => e := by
  induction l with
  | nil => rfl
  | cons d l ih => by_cases hd : key d = key e <;> simp [hd, ih]

theorem lookup_replace_of_ne (e : ε) {k : κ} (hk : key e ≠ k) :
    lookup key hash (replace key hash b e) k = lookup key hash b k := by
  by_cases hh : hash k = hash (key e)
  · simp only [lookup, ChainedTable.replace, hh, Function.update_self]
    exact find?_map_replace_of_ne _ e hk
  · simp [lookup, ChainedTable.replace, Function.update_of_ne hh]

theorem lookup_replace_self (e : ε) :
    lookup key hash (replace key hash b e) (key e) =
      (lookup key hash b (key e)).map fun _ => e := by
  simp only [lookup, ChainedTable.replace, Function.update_self]
  exact find?_map_replace_self _ e

/-- In a chain with distinct keys, exactly the entry found is exchanged. -/
theorem exists_coe_map_replace {l : List ε} (hn : (l.map key).Nodup) {e f : ε}
    (hl : (l.find? fun d => key d = key e) = some f) :
    ∃ R : Multiset ε, (l : Multiset ε) = f ::ₘ R ∧
      ((l.map fun d => if key d = key e then e else d : List ε) : Multiset ε) = e ::ₘ R := by
  induction l with
  | nil => simp at hl
  | cons d l ih =>
    rw [List.map_cons, List.nodup_cons] at hn
    by_cases hd : key d = key e
    · simp only [List.find?_cons, hd, decide_true, Option.some.injEq] at hl
      have hid : (l.map fun c => if key c = key e then e else c) = l := by
        refine (List.map_congr_left fun c hc => if_neg fun hce => hn.1 ?_).trans (List.map_id l)
        exact List.mem_map.mpr ⟨c, hc, hce.trans hd.symm⟩
      refine ⟨l, by rw [hl]; rfl, ?_⟩
      rw [List.map_cons, hid, if_pos hd]
      rfl
    · simp only [List.find?_cons, hd, decide_false] at hl
      obtain ⟨R, hR, hR'⟩ := ih hn.2 hl
      refine ⟨d ::ₘ R, ?_, ?_⟩
      · rw [← Multiset.cons_coe, hR, Multiset.cons_swap]
      · rw [List.map_cons, if_neg hd, ← Multiset.cons_coe, hR', Multiset.cons_swap]

/-- **A replaced entry, seen in the multiset.** The other entries are untouched. -/
theorem WellFormed.exists_entries_replace (h : WellFormed key hash b) {e f : ε}
    (hf : lookup key hash b (key e) = some f) :
    ∃ R : Multiset ε, entries b = f ::ₘ R ∧
      entries (ChainedTable.replace key hash b e) = e ::ₘ R := by
  obtain ⟨R, hR, hR'⟩ := exists_coe_map_replace (h.nodup (hash (key e))) hf
  obtain ⟨S, hS⟩ := exists_entries_eq_add b (hash (key e))
  have hb := hS (b (hash (key e)))
  rw [Function.update_eq_self] at hb
  refine ⟨R + S, ?_, ?_⟩
  · rw [hb, hR, Multiset.cons_add]
  · rw [ChainedTable.replace, hS, hR', Multiset.cons_add]

/-! ### Removing an entry -/

theorem WellFormed.remove (h : WellFormed key hash b) (k : κ) :
    WellFormed key hash (remove key hash b k) := by
  refine h.update _ ?_ ?_
  · intro d hd
    exact h.placed _ d (List.mem_of_mem_eraseP hd)
  · exact ((List.eraseP_sublist).map key).nodup (h.nodup _)

/-- In a chain with distinct keys, taking out the first entry with a key filters that key. -/
theorem eraseP_key_eq_filter {l : List ε} (hn : (l.map key).Nodup) (k : κ) :
    (l.eraseP fun e => key e = k) = l.filter fun e => key e ≠ k := by
  induction l with
  | nil => rfl
  | cons d l ih =>
    rw [List.map_cons, List.nodup_cons] at hn
    by_cases hd : key d = k
    · have hall : l.filter (fun e => key e ≠ k) = l := by
        refine List.filter_eq_self.mpr fun e he => ?_
        simp only [ne_eq, decide_eq_true_eq]
        exact fun hek => hn.1 (List.mem_map.mpr ⟨e, he, hek.trans hd.symm⟩)
      simp only [List.eraseP_cons, hd, decide_true, cond_true, List.filter_cons, ne_eq,
        not_true_eq_false, decide_false, Bool.false_eq_true, if_false]
      exact hall.symm
    · simp only [List.eraseP_cons, hd, decide_false, cond_false, List.filter_cons, ne_eq,
        not_false_eq_true, decide_true, if_true]
      rw [ih hn.2]

theorem WellFormed.remove_eq_retain (h : WellFormed key hash b) (k : κ) :
    ChainedTable.remove key hash b k = ChainedTable.retain (fun e => key e ≠ k) b := by
  funext i
  by_cases hi : i = hash k
  · subst hi
    rw [ChainedTable.remove, Function.update_self, eraseP_key_eq_filter (h.nodup _)]
    rfl
  · rw [ChainedTable.remove, Function.update_of_ne hi]
    refine (List.filter_eq_self.mpr fun e he => ?_).symm
    simp only [ne_eq, decide_eq_true_eq]
    rintro rfl
    exact hi (h.placed i e he).symm

/-! ### Lookup after retaining -/

theorem WellFormed.lookup_retain (h : WellFormed key hash b) (p : ε → Bool) (k : κ) :
    lookup key hash (ChainedTable.retain p b) k = (lookup key hash b k).filter p := by
  refine Option.ext fun e => ?_
  rw [(h.retain p).lookup_eq_some_iff, entries_retain, Multiset.mem_filter,
    Option.filter_eq_some_iff, h.lookup_eq_some_iff]
  tauto

end Operations

end ChainedTable
