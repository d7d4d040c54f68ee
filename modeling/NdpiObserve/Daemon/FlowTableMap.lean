import NdpiObserve.Library.Machine
import NdpiObserve.Daemon.FlowTable

/-!
# The flow table is a finite map

Callers of the flow table see a finite map from keys to entries. `FlowMap` is that map, with the
number of insertions made so far, and `FlowMap.Step` says what each call of
`daemon/flow_table.c` does to it: no chain, no bucket and no order of the chains appears there.
Every sequence of calls on the hash table is a run of the map with the same results.

## Main definitions

* `FlowMap`, `FlowMap.Step`: the map and the effect of each call on it.
* `TableOp`, `tableStep`: the calls, with the hash table they run on.
* `FlowTable.Represents`: the hash table holds the map.

## Main results

* `FlowTable.Represents.step`: one call.
* `flowTable_refines_flowMap`: every sequence of calls.
-/

namespace NdpiObserve

/-- A finite map from keys to entries, and the number of insertions since it was initialised. -/
structure FlowMap where
  find : FlowKey → Option FlowEntry
  created : ℕ

/-- The calls on a flow table. The callback of `age` works on a context of type `σ`; `store`
stands for a caller that changes an entry through the pointer it obtained. -/
inductive TableOp (σ : Type*) where
  | init
  | lookup (k : FlowKey)
  | getOrCreate (k : FlowKey) (calloc : Bool) (now : ℤ)
  | store (f : FlowEntry)
  | remove (k : FlowKey)
  | age (now : ℚ) (onExpire : Option (FlowEntry → σ → σ)) (ctx : σ)
  | destroy

/-- The result of a call: nothing, an entry pointer, or the context after the callbacks. -/
inductive TableOut (σ : Type*) where
  | done
  | entry (e : Option FlowEntry)
  | context (ctx : σ)

section

variable {σ : Type*}

/-- A call on the hash table. -/
def tableStep (t : FlowTable) : TableOp σ → FlowTable × TableOut σ
  | .init => (flowTableInit, .done)
  | .lookup k => (t, .entry (flowTableLookup t k))
  | .getOrCreate k calloc now =>
    let r := flowTableGetOrCreate t k calloc now
    (r.1, .entry r.2)
  | .store f => (t.store f, .done)
  | .remove k => ((flowTableRemove t k).1, .done)
  | .age now onExpire ctx =>
    let r := flowTableAge t now onExpire ctx
    (r.1, .context r.2.1)
  | .destroy => ((flowTableDestroy t).1, .done)

namespace FlowMap

def empty : FlowMap where
  find _ := none
  created := 0

/-- `l` lists each entry of the map that is idle at `now` once, and nothing else. -/
def IsIdleList (m : FlowMap) (now : ℚ) (l : List FlowEntry) : Prop :=
  l.Nodup ∧ ∀ e, e ∈ l ↔ m.find e.key = some e ∧ e.isIdle now = true

/-- The effect and the result of a call on the map. -/
def Step (m : FlowMap) : TableOp σ → TableOut σ → FlowMap → Prop
  | .init, out, m' => out = .done ∧ m' = empty
  | .lookup k, out, m' => out = .entry (m.find k) ∧ m' = m
  | .getOrCreate k calloc now, out, m' =>
    match m.find k with
    | some e => out = .entry (some e) ∧ m' = m
    | none =>
      if calloc then
        out = .entry (some (FlowTable.fresh k now)) ∧
          m' = ⟨Function.update m.find k (some (FlowTable.fresh k now)), m.created + 1⟩
      else out = .entry none ∧ m' = m
  | .store f, out, m' =>
    out = .done ∧
      m' = if (m.find f.key).isSome then { m with find := Function.update m.find f.key (some f) }
        else m
  | .remove k, out, m' => out = .done ∧ m' = { m with find := Function.update m.find k none }
  | .age now onExpire ctx, out, m' =>
    m' = { m with find := fun k => (m.find k).filter fun e => !e.isIdle now } ∧
      ∃ l, m.IsIdleList now l ∧
        out = .context (l.foldl (fun c e => onExpire.elim c fun f => f e c) ctx)
  | .destroy, out, m' => out = .done ∧ m' = { m with find := fun _ => none }

end FlowMap

/-- The hash table holds the map: the table is valid, lookup reads the map, and the insertion
counter is the number of insertions. -/
structure FlowTable.Represents (t : FlowTable) (m : FlowMap) : Prop where
  valid : t.Valid
  lookup_eq : flowTableLookup t = m.find
  totalCreated_eq : t.totalCreated = UInt64.ofNat m.created

namespace FlowTable

variable {t : FlowTable} {m : FlowMap}

theorem represents_init : flowTableInit.Represents FlowMap.empty where
  valid := valid_init
  lookup_eq := rfl
  totalCreated_eq := rfl

theorem Represents.mem_entries_iff (h : t.Represents m) {e : FlowEntry} :
    e ∈ t.entries ↔ m.find e.key = some e := by
  rw [← h.lookup_eq, h.valid.lookup_eq_some_iff]
  simp

theorem Represents.isIdleList (h : t.Represents m) (now : ℚ) : m.IsIdleList now (t.idle now) := by
  refine ⟨?_, fun e => ?_⟩
  · rw [← Multiset.coe_nodup, coe_idle]
    exact h.valid.nodup_entries.filter _
  · rw [← Multiset.mem_coe, coe_idle, Multiset.mem_filter, h.mem_entries_iff]

theorem Represents.insert (h : t.Represents m) {e : FlowEntry} (he : m.find e.key = none) :
    (t.insert e).Represents ⟨Function.update m.find e.key (some e), m.created + 1⟩ where
  valid := h.valid.insert (by rw [h.lookup_eq, he])
  lookup_eq := by
    funext k
    change _ = Function.update m.find e.key (some e) k
    rw [lookup_insert, h.lookup_eq, Function.update_apply]
    simp only [eq_comm]
  totalCreated_eq := by
    rw [UInt64.ofNat_add, ← h.totalCreated_eq]
    rfl

theorem Represents.store (h : t.Represents m) (f : FlowEntry) :
    (t.store f).Represents (if (m.find f.key).isSome then
      { m with find := Function.update m.find f.key (some f) } else m) where
  valid := h.valid.store f
  lookup_eq := by
    funext k
    rcases eq_or_ne f.key k with rfl | hk
    · rw [lookup_store_self, h.lookup_eq]
      cases hf : m.find f.key <;> simp [hf]
    · rw [lookup_store_of_ne f hk, h.lookup_eq]
      split
      · exact (Function.update_of_ne hk.symm _ _).symm
      · rfl
  totalCreated_eq := by
    rw [totalCreated_store, h.totalCreated_eq]
    split <;> rfl

theorem Represents.erase (h : t.Represents m) (k : FlowKey) :
    (t.erase k).Represents { m with find := Function.update m.find k none } where
  valid := h.valid.erase k
  lookup_eq := by
    funext k'
    change _ = Function.update m.find k none k'
    rw [h.valid.lookup_erase, h.lookup_eq, Function.update_apply]
    simp only [eq_comm]
  totalCreated_eq := h.totalCreated_eq

theorem Represents.sweep (h : t.Represents m) (now : ℚ) :
    (t.sweep now).Represents
      { m with find := fun k => (m.find k).filter fun e => !e.isIdle now } where
  valid := h.valid.sweep now
  lookup_eq := by
    funext k
    rw [h.valid.lookup_sweep, h.lookup_eq]
  totalCreated_eq := h.totalCreated_eq

theorem Represents.destroy (h : t.Represents m) :
    (flowTableDestroy t).1.Represents { m with find := fun _ => none } where
  valid := ⟨ChainedTable.wellFormed_empty, by simp [entries, flowTableDestroy]⟩
  lookup_eq := rfl
  totalCreated_eq := h.totalCreated_eq

/-- **One call.** A call on a hash table that holds a map has the effect and the result of the
call on the map. -/
theorem Represents.step (h : t.Represents m) (op : TableOp σ) :
    ∃ m', m.Step op (tableStep t op).2 m' ∧ (tableStep t op).1.Represents m' := by
  cases op with
  | init => exact ⟨FlowMap.empty, ⟨rfl, rfl⟩, represents_init⟩
  | lookup k => exact ⟨m, ⟨by rw [tableStep, h.lookup_eq], rfl⟩, h⟩
  | getOrCreate k calloc now =>
    simp only [FlowMap.Step, tableStep]
    cases hk : m.find k with
    | some e =>
      rw [getOrCreate_of_some (by rw [h.lookup_eq, hk])]
      exact ⟨m, ⟨rfl, rfl⟩, h⟩
    | none =>
      rw [getOrCreate_of_none (by rw [h.lookup_eq, hk])]
      cases calloc with
      | false => exact ⟨m, ⟨rfl, rfl⟩, h⟩
      | true => exact ⟨_, ⟨rfl, rfl⟩, h.insert (e := fresh k now) hk⟩
  | store f => exact ⟨_, ⟨rfl, rfl⟩, h.store f⟩
  | remove k =>
    refine ⟨_, ⟨rfl, rfl⟩, ?_⟩
    simp only [tableStep, h.valid.remove_eq]
    exact h.erase k
  | age now onExpire ctx =>
    simp only [FlowMap.Step, tableStep, flowTableAge_eq]
    exact ⟨_, ⟨rfl, t.idle now, h.isIdleList now, rfl⟩, h.sweep now⟩
  | destroy => exact ⟨_, ⟨rfl, rfl⟩, h.destroy⟩

/-- The number of entries of a table that holds a map is the size of the map. -/
theorem Represents.card_entries (h : t.Represents m) :
    Multiset.card t.entries = {k | (m.find k).isSome}.ncard := by
  classical
  have hset : {k | (m.find k).isSome} = ((t.entries.map FlowEntry.key).toFinset : Set FlowKey) := by
    ext k
    simp only [Set.mem_ofPred_eq, Finset.mem_coe, Multiset.mem_toFinset, Multiset.mem_map,
      h.mem_entries_iff, Option.isSome_iff_exists]
    constructor
    · rintro ⟨e, he⟩
      have hk : e.key = k := h.valid.key_lookup (by rw [h.lookup_eq, he])
      exact ⟨e, by rw [hk, he], hk⟩
    · rintro ⟨e, he, rfl⟩
      exact ⟨e, he⟩
  rw [hset, Set.ncard_coe_finset, Multiset.toFinset_card_of_nodup h.valid.nodup_keys,
    Multiset.card_map]

end FlowTable

/-- **The flow table refines a finite map.** Whatever the memory of the table held before, every
sequence of calls that starts with `flow_table_init` is a run of the map with the same results.
Afterwards every entry sits in the bucket of its key's hash, the keys are distinct, `count` is
the size of the map, `total_created` is the number of insertions, and both the chains and
`flow_table_lookup` hold exactly the entries of the map. -/
theorem flowTable_refines_flowMap (t : FlowTable) (m₀ : FlowMap) (ops : List (TableOp σ)) :
    let r := Machine.runOut tableStep t (.init :: ops)
    ∃ m : FlowMap, Machine.Run FlowMap.Step m₀ (.init :: ops) r.2 m ∧
      (∀ i, ∀ e ∈ r.1.buckets i, flowKeyHash e.key = i) ∧
      (r.1.entries.map FlowEntry.key).Nodup ∧
      r.1.count = UInt32.ofNat {k | (m.find k).isSome}.ncard ∧
      Multiset.card r.1.entries = {k | (m.find k).isSome}.ncard ∧
      r.1.totalCreated = UInt64.ofNat m.created ∧
      (∀ e, e ∈ r.1.entries ↔ m.find e.key = some e) ∧
      ∀ k, flowTableLookup r.1 k = m.find k := by
  obtain ⟨m, hrun, hm⟩ := Machine.exists_run_of_simulation (fun _ _ op h => h.step op)
    FlowTable.represents_init ops
  exact ⟨m, .cons ⟨rfl, rfl⟩ hrun, hm.valid.wellFormed.placed, hm.valid.nodup_keys,
    by rw [← hm.card_entries]; exact hm.valid.count_eq, hm.card_entries, hm.totalCreated_eq,
    fun _ => hm.mem_entries_iff, congrFun hm.lookup_eq⟩

end

end NdpiObserve
