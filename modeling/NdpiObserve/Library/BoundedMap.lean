import Mathlib

/-!
# Maps of bounded capacity

A finite map that holds at most `cap` keys, over any types of keys and values. Binding a key fails
when the key is new and the map is full; a value that is present can always be changed in place.

## Main definitions

* `BoundedMap`: a finite map with the bound on its keys.
* `BoundedMap.update`, `BoundedMap.insertNew`, `BoundedMap.set`: binding a key, binding a new key,
  changing the value of a key in place.
* `BoundedMap.filled`: a full map.
* `BoundedMap.Holds`: the map holds the first keys that were offered to it.

## Main results

* `BoundedMap.update_eq_none_iff`: an update fails exactly for a new key of a full map.
* `BoundedMap.lookup_update`, `BoundedMap.lookup_set`: what the operations do to every key.
* `BoundedMap.Holds.offer`: a map from which nothing is deleted keeps the first keys that fit.
-/

/-- A finite map with at most `cap` keys. -/
structure BoundedMap (κ α : Type*) (cap : ℕ) where
  map : AList fun _ : κ => α
  length_keys_le : map.keys.length ≤ cap

namespace BoundedMap

variable {κ α : Type*} {cap : ℕ}

def empty : BoundedMap κ α cap := ⟨∅, Nat.zero_le cap⟩

/-- No new key can be bound. -/
def IsFull (m : BoundedMap κ α cap) : Prop := m.map.keys.length = cap

instance (m : BoundedMap κ α cap) : Decidable m.IsFull :=
  inferInstanceAs (Decidable (m.map.keys.length = cap))

theorem keys_map_mk {ι : Type*} (f : ι → κ) (a : α) (l : List ι) :
    (l.map fun i => (⟨f i, a⟩ : (_ : κ) × α)).keys = l.map f :=
  List.map_map

/-- A full map, with the keys `f 0`, `f 1`, up to its capacity. -/
def filled (f : ℕ → κ) (a : α) (hf : ((List.range cap).map f).Nodup) : BoundedMap κ α cap where
  map :=
    { entries := (List.range cap).map fun i => ⟨f i, a⟩
      nodupKeys := by
        rw [List.NodupKeys, keys_map_mk]
        exact hf }
  length_keys_le := by rw [AList.keys_mk, keys_map_mk, List.length_map, List.length_range]

theorem keys_filled (f : ℕ → κ) (a : α) (hf : ((List.range cap).map f).Nodup) :
    (filled f a hf).map.keys = (List.range cap).map f :=
  keys_map_mk f a (List.range cap)

theorem isFull_filled (f : ℕ → κ) (a : α) (hf : ((List.range cap).map f).Nodup) :
    (filled f a hf).IsFull := by
  rw [IsFull, keys_filled, List.length_map, List.length_range]

variable [DecidableEq κ]

def lookup (m : BoundedMap κ α cap) (k : κ) : Option α := m.map.lookup k

/-- The key is bound to the value; nothing when it is new and the map is full. -/
def update (m : BoundedMap κ α cap) (k : κ) (a : α) : Option (BoundedMap κ α cap) :=
  if h : (m.map.insert k a).keys.length ≤ cap then some ⟨m.map.insert k a, h⟩ else none

/-- A new key is bound to the value; nothing when the key is present or the map is full. -/
def insertNew (m : BoundedMap κ α cap) (k : κ) (a : α) : Option (BoundedMap κ α cap) :=
  if (m.lookup k).isSome then none else m.update k a

theorem length_keys_insert {m : AList fun _ : κ => α} {k : κ} (h : k ∈ m) (a : α) :
    (m.insert k a).keys.length = m.keys.length := by
  rw [AList.keys_insert, List.length_cons, List.length_erase_add_one (AList.mem_keys.mp h)]

/-- The value of a key that is present is changed in place. -/
def set (m : BoundedMap κ α cap) (k : κ) (a : α) : BoundedMap κ α cap :=
  if h : k ∈ m.map then ⟨m.map.insert k a, by rw [length_keys_insert h]; exact m.length_keys_le⟩
  else m

variable {m m' : BoundedMap κ α cap} {k : κ}

@[simp] theorem lookup_empty (k : κ) : (empty : BoundedMap κ α cap).lookup k = none :=
  AList.lookup_empty k

theorem lookup_eq_none_iff : m.lookup k = none ↔ k ∉ m.map := AList.lookup_eq_none

theorem lookup_filled (f : ℕ → κ) (a : α) (hf : ((List.range cap).map f).Nodup)
    (hk : ∀ i < cap, f i ≠ k) : (filled f a hf).lookup k = none := by
  rw [lookup_eq_none_iff, AList.mem_keys, keys_filled, List.mem_map]
  rintro ⟨i, hi, rfl⟩
  exact hk i (List.mem_range.mp hi) rfl

/-- **Failing updates.** An update fails exactly when the key is new and the map is full. -/
theorem update_eq_none_iff {a : α} : m.update k a = none ↔ m.lookup k = none ∧ m.IsFull := by
  rw [lookup_eq_none_iff, update, IsFull]
  have hle := m.length_keys_le
  by_cases hk : k ∈ m.map
  · have hlen := length_keys_insert hk a
    simp only [hk, not_true, false_and, iff_false]
    rw [dif_pos (by omega)]
    exact Option.some_ne_none _
  · have hlen : (m.map.insert k a).keys.length = m.map.keys.length + 1 := by
      rw [AList.keys_insert, List.length_cons,
        List.erase_of_not_mem fun h => hk (AList.mem_keys.mpr h)]
    simp only [hk, not_false_iff, true_and, dite_eq_right_iff, reduceCtorEq, imp_false]
    omega

theorem insertNew_eq_none_iff {a : α} :
    m.insertNew k a = none ↔ m.lookup k ≠ none ∨ m.IsFull := by
  rw [insertNew]
  cases h : m.lookup k with
  | none => simp [update_eq_none_iff, h]
  | some b => simp

theorem lookup_insert (m : AList fun _ : κ => α) (k k' : κ) (a : α) :
    (m.insert k a).lookup k' = if k' = k then some a else m.lookup k' := by
  split
  case isTrue h => rw [h, AList.lookup_insert]
  case isFalse h => rw [AList.lookup_insert_ne h]

/-- An update that succeeds binds its key and no other. -/
theorem lookup_update {a : α} (h : m.update k a = some m') (k' : κ) :
    m'.lookup k' = if k' = k then some a else m.lookup k' := by
  rw [update] at h
  split at h
  case isTrue hlen =>
    rw [← Option.some.inj h]
    exact lookup_insert m.map k k' a
  case isFalse => cases h

/-- An update that is tried is done for a key that is present, or when the map has room. -/
theorem lookup_getD_update_self (m : BoundedMap κ α cap) (k : κ) (a : α) :
    ((m.update k a).getD m).lookup k =
      if (m.lookup k).isSome = true ∨ ¬m.IsFull then some a else none := by
  cases hupdate : m.update k a with
  | none =>
    obtain ⟨hnone, hfull⟩ := update_eq_none_iff.mp hupdate
    rw [Option.getD_none, hnone, if_neg]
    exact not_or_intro Bool.false_ne_true (not_not_intro hfull)
  | some m' =>
    rw [Option.getD_some, lookup_update hupdate, if_pos rfl, if_pos]
    by_contra hno
    rw [not_or, not_not, Option.not_isSome_iff_eq_none] at hno
    rw [update_eq_none_iff.mpr hno] at hupdate
    cases hupdate

theorem lookup_getD_update_of_ne (m : BoundedMap κ α cap) {k k' : κ} (hne : k' ≠ k) (a : α) :
    ((m.update k a).getD m).lookup k' = m.lookup k' := by
  cases hupdate : m.update k a with
  | none => rfl
  | some m' => rw [Option.getD_some, lookup_update hupdate, if_neg hne]

theorem lookup_insertNew {a : α} (h : m.insertNew k a = some m') (k' : κ) :
    m'.lookup k' = if k' = k then some a else m.lookup k' := by
  rw [insertNew] at h
  split at h
  · cases h
  · exact lookup_update h k'

/-- Changing a value in place changes the value of its key and no other. -/
theorem lookup_set (m : BoundedMap κ α cap) (k k' : κ) (a : α) :
    (m.set k a).lookup k' = if k' = k then (m.lookup k).map fun _ => a else m.lookup k' := by
  rw [set]
  split
  case isTrue h =>
    obtain ⟨b, hb⟩ := Option.isSome_iff_exists.mp (AList.lookup_isSome.mpr h)
    rw [lookup, lookup, lookup, hb]
    exact lookup_insert m.map k k' a
  case isFalse h =>
    have hnone := lookup_eq_none_iff.mpr h
    split
    · simp [*]
    · rfl

/-! ### First come, first stored -/

theorem eraseDups_concat (l : List κ) (k : κ) :
    (l ++ [k]).eraseDups = if k ∈ l then l.eraseDups else l.eraseDups ++ [k] := by
  rw [List.eraseDups_append]
  split
  case isTrue h => simp [List.removeAll, h]
  case isFalse h =>
    have hnew : [k].removeAll l = [k] := by simp [List.removeAll, h]
    rw [hnew, List.eraseDups_cons, List.filter_nil, List.eraseDups_nil]

theorem nodup_eraseDups (l : List κ) : l.eraseDups.Nodup := by
  induction l using List.reverseRecOn with
  | nil => exact List.nodup_nil
  | append_singleton l k ih =>
    rw [eraseDups_concat]
    split
    case isTrue => exact ih
    case isFalse h =>
      rw [← List.concat_eq_append]
      exact ih.concat fun hk => h (List.mem_eraseDups.mp hk)

theorem length_eraseDups_le_of_subset {l l' : List κ} (h : l ⊆ l') :
    l.eraseDups.length ≤ l'.eraseDups.length :=
  ((nodup_eraseDups l).subperm fun _ hk =>
    List.mem_eraseDups.mpr (h (List.mem_eraseDups.mp hk))).length_le

/-- The first `cap` different keys of a list, in the order of their first appearance. -/
def firstKeys (cap : ℕ) (l : List κ) : List κ := l.eraseDups.take cap

theorem mem_firstKeys_of_le {l : List κ} (h : l.eraseDups.length ≤ cap) :
    k ∈ firstKeys cap l ↔ k ∈ l := by
  rw [firstKeys, List.take_of_length_le h, List.mem_eraseDups]

theorem firstKeys_append_of_le {l : List κ} (h : cap ≤ l.eraseDups.length) (l' : List κ) :
    firstKeys cap (l ++ l') = firstKeys cap l := by
  rw [firstKeys, List.eraseDups_append, List.take_append_of_le_length h, firstKeys]

/-- The map holds the first keys that were offered to it, as far as they fit. -/
def Holds (m : BoundedMap κ α cap) (l : List κ) : Prop :=
  ∀ k, (m.lookup k).isSome = true ↔ k ∈ firstKeys cap l

theorem holds_empty : (empty : BoundedMap κ α cap).Holds [] := by
  intro k
  rw [lookup_empty, firstKeys, List.eraseDups_nil, List.take_nil]
  exact iff_of_false Bool.false_ne_true List.not_mem_nil

/-- A map that holds the first keys is full when it was offered enough of them. -/
theorem Holds.isFull_iff {l : List κ} (h : m.Holds l) : m.IsFull ↔ cap ≤ l.eraseDups.length := by
  have hperm : m.map.keys.Perm (firstKeys cap l) := by
    refine (List.perm_ext_iff_of_nodup m.map.nodupKeys ((nodup_eraseDups l).take)).mpr fun k => ?_
    exact AList.lookup_isSome.symm.trans (h k)
  rw [IsFull, hperm.length_eq, firstKeys, List.length_take]
  exact min_eq_left_iff

/-- As long as it is not full, such a map holds everything that was offered. -/
theorem Holds.isSome_iff {l : List κ} (h : m.Holds l) (hroom : ¬m.IsFull) :
    (m.lookup k).isSome = true ↔ k ∈ l := by
  rw [h k, mem_firstKeys_of_le (Nat.le_of_not_le fun hle => hroom (h.isFull_iff.mpr hle))]

/-- There is room for the next key when all keys fit. -/
theorem Holds.not_isFull {l : List κ} (h : m.Holds l) (hle : (l ++ [k]).eraseDups.length ≤ cap)
    (hnone : m.lookup k = none) : ¬m.IsFull := by
  intro hfull
  have hcap := h.isFull_iff.mp hfull
  rw [eraseDups_concat] at hle
  split at hle
  case isTrue hk =>
    have hsome := (h k).mpr ((mem_firstKeys_of_le hle).mpr hk)
    rw [hnone] at hsome
    cases hsome
  case isFalse =>
    rw [List.length_append, List.length_singleton] at hle
    omega

/-- Once a map that holds the first keys is full, nothing is stored any more. -/
theorem Holds.of_isFull {l l' : List κ} (h : m.Holds l) (hfull : m.IsFull)
    (h' : m'.Holds (l ++ l')) :
    m'.IsFull ∧ ∀ k, (m'.lookup k).isSome = true ↔ (m.lookup k).isSome = true := by
  have hle := h.isFull_iff.mp hfull
  refine ⟨h'.isFull_iff.mpr ?_, fun k => ?_⟩
  · rw [List.eraseDups_append, List.length_append]
    exact le_add_right hle
  · rw [h' k, h k, firstKeys_append_of_le hle]

/-- **First come, first stored.** A step that changes no other key, and after which the key `k` is
present if it was before or the map had room, is one more key offered. -/
theorem Holds.offer {l : List κ} (h : m.Holds l)
    (hk : (m'.lookup k).isSome = true ↔ (m.lookup k).isSome = true ∨ ¬m.IsFull)
    (hne : ∀ k' ≠ k, (m'.lookup k').isSome = (m.lookup k').isSome) : m'.Holds (l ++ [k]) := by
  intro k'
  by_cases hfull : m.IsFull
  · rw [firstKeys_append_of_le (h.isFull_iff.mp hfull), ← h k']
    by_cases hk' : k' = k
    · rw [hk', hk, or_iff_left (not_not_intro hfull)]
    · rw [hne k' hk']
  · have hlt : l.eraseDups.length < cap := Nat.not_le.mp fun hle => hfull (h.isFull_iff.mpr hle)
    have hle : (l ++ [k]).eraseDups.length ≤ cap := by
      rw [eraseDups_concat]
      split
      · exact hlt.le
      · rw [List.length_append, List.length_singleton]
        exact hlt
    rw [mem_firstKeys_of_le hle, List.mem_append, List.mem_singleton, ← h.isSome_iff hfull]
    by_cases hk' : k' = k
    · rw [hk', hk]
      exact iff_of_true (.inr hfull) (.inr rfl)
    · rw [hne k' hk', or_iff_left hk']

end BoundedMap
