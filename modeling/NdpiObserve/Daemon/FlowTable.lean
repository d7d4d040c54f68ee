import NdpiObserve.Library.ChainedTable
import NdpiObserve.Types

/-!
# The daemon's flow table

The hash table of `daemon/flow_table.c`: `65536` buckets of chained entries. A chain is the list
of its entries in the order of their `next` pointers. An entry that a caller changes through the
pointer it obtained is written back by `FlowTable.store`. Results of the C library are
arguments: whether `calloc` succeeds and what `time(NULL)` returns. The functions that free
nDPI flow structures return the pointers they pass to `ndpi_flow_free`, in order.

A `double` is an exact rational here: the code stores whole seconds in them.

## Main definitions

* `FlowEntry`, `FlowTable`: the two structures of `daemon/flow_table.h`.
* `flowTableInit`, `flowTableLookup`, `flowTableGetOrCreate`, `flowTableRemove`,
  `flowTableAge`, `flowTableDestroy`: its functions.
* `FlowTable.Valid`: the buckets are well formed and `count` is the number of entries.

## Main results

* `flowTableLookup_eq`, `flowTableRemove_fst`, `flowTableAge_eq`: the loops over chains are the
  operations of `ChainedTable`.
* `FlowTable.Valid.getOrCreate`, `FlowTable.Valid.store`, `FlowTable.Valid.remove`,
  `FlowTable.Valid.age`: the operations keep a table valid.
-/

namespace NdpiObserve

/-! ### Entries -/

/-- Which counter holds the classification credit of a flow. -/
inductive CreditMethod where
  | none
  | ndpi
  | giveup
  | sni
  | ml
  | dns
deriving DecidableEq

/-- The address of an nDPI flow structure. -/
abbrev NdpiFlowPtr := ℕ

/-- `flow_entry_t`; the defaults are the zeroes of `calloc`. -/
structure FlowEntry where
  key : FlowKey
  state : FlowState := .new
  pktCount : UInt8 := 0
  appId : UInt16 := 0
  category : UInt16 := 0
  classified : UInt8 := 0
  creditMethod : CreditMethod := .none
  bytes : UInt64 := 0
  packets : UInt64 := 0
  firstSeen : ℚ := 0
  lastSeen : ℚ := 0
  sni : Bytes := []
  ndpiFlow : Option NdpiFlowPtr := Option.none
  mlPktSum : ℚ := 0
  mlPktSq : ℚ := 0
  mlPktMin : UInt16 := 0
  mlPktMax : UInt16 := 0
  mlFirstPkt : UInt16 := 0
  mlLastPkt : UInt16 := 0
  mlIatSum : ℚ := 0
  mlIatSq : ℚ := 0
  mlIatMin : ℚ := 0
  mlIatMax : ℚ := 0
  mlLastPktTime : ℚ := 0
  mlNPkts : UInt8 := 0
deriving DecidableEq

def flowTcpIdleSec : ℚ := 300

def flowUdpIdleSec : ℚ := 30

/-- The idle timeout of the entry's protocol. -/
def FlowEntry.timeout (e : FlowEntry) : ℚ :=
  if e.key.proto = 6 then flowTcpIdleSec else flowUdpIdleSec

/-- The entry has been idle for longer than its timeout. -/
def FlowEntry.isIdle (now : ℚ) (e : FlowEntry) : Bool := e.timeout < now - e.lastSeen

/-! ### The table -/

/-- `FLOW_TABLE_BUCKETS`. -/
def flowTableBuckets : ℕ := 65536

/-- `flow_table_t`. -/
structure FlowTable where
  buckets : Fin flowTableBuckets → List FlowEntry
  count : UInt32
  totalCreated : UInt64

def flowKeyHash (k : FlowKey) : Fin flowTableBuckets :=
  let h : UInt32 := k.toBytes.foldl (fun h p => (h ^^^ p.toUInt32) * 16777619) 2166136261
  ⟨h.toNat % flowTableBuckets, Nat.mod_lt _ (by decide)⟩

def flowKeyEq (a b : FlowKey) : Bool := a.toBytes = b.toBytes

theorem flowKeyEq_iff {a b : FlowKey} : flowKeyEq a b = true ↔ a = b := by
  simp [flowKeyEq, FlowKey.toBytes_injective.eq_iff]

def flowTableInit : FlowTable where
  buckets _ := []
  count := 0
  totalCreated := 0

/-- The loop of `flow_table_lookup` along one chain. -/
def chainLookup (k : FlowKey) : List FlowEntry → Option FlowEntry
  | [] => none
  | e :: rest => if flowKeyEq e.key k then some e else chainLookup k rest

def flowTableLookup (t : FlowTable) (k : FlowKey) : Option FlowEntry :=
  chainLookup k (t.buckets (flowKeyHash k))

/-- The entry of `k`, created when it is absent; nothing when `calloc` fails. -/
def flowTableGetOrCreate (t : FlowTable) (k : FlowKey) (calloc : Bool) (now : ℤ) :
    FlowTable × Option FlowEntry :=
  match flowTableLookup t k with
  | some e => (t, some e)
  | none =>
    if calloc then
      let e : FlowEntry := { key := k, state := .new, firstSeen := now, lastSeen := now }
      ({ buckets := Function.update t.buckets (flowKeyHash k) (e :: t.buckets (flowKeyHash k))
         count := t.count + 1
         totalCreated := t.totalCreated + 1 }, some e)
    else
      (t, none)

/-- The loop of `flow_table_remove` along one chain: the entry taken out, and the chain
without it. -/
def chainRemove (k : FlowKey) : List FlowEntry → Option (FlowEntry × List FlowEntry)
  | [] => none
  | e :: rest =>
    if flowKeyEq e.key k then some (e, rest)
    else (chainRemove k rest).map fun r => (r.1, e :: r.2)

def flowTableRemove (t : FlowTable) (k : FlowKey) : FlowTable × List NdpiFlowPtr :=
  match chainRemove k (t.buckets (flowKeyHash k)) with
  | none => (t, [])
  | some (dead, chain) =>
    ({ t with
        buckets := Function.update t.buckets (flowKeyHash k) chain
        count := t.count - 1 }, dead.ndpiFlow.toList)

/-- What `flow_table_age` has done besides unlinking entries. -/
structure Sweep (σ : Type*) where
  ctx : σ
  count : UInt32
  freed : List NdpiFlowPtr

/-- One expired entry: the callback runs, then the nDPI flow and the entry are freed. -/
def Sweep.expire {σ : Type*} (onExpire : Option (FlowEntry → σ → σ)) (e : FlowEntry)
    (s : Sweep σ) : Sweep σ where
  ctx := onExpire.elim s.ctx fun f => f e s.ctx
  count := s.count - 1
  freed := s.freed ++ e.ndpiFlow.toList

/-- The loop of `flow_table_age` along one chain, its cursor at the head of the list. -/
def chainAge {σ : Type*} (now : ℚ) (onExpire : Option (FlowEntry → σ → σ)) :
    List FlowEntry → Sweep σ → List FlowEntry × Sweep σ
  | [], s => ([], s)
  | e :: rest, s =>
    if e.isIdle now then chainAge now onExpire rest (s.expire onExpire e)
    else
      let r := chainAge now onExpire rest s
      (e :: r.1, r.2)

/-- The sweep over all buckets; `ctx` is the context that the callback receives. -/
def flowTableAge {σ : Type*} (t : FlowTable) (now : ℚ) (onExpire : Option (FlowEntry → σ → σ))
    (ctx : σ) : FlowTable × σ × List NdpiFlowPtr :=
  let r := (List.finRange flowTableBuckets).foldl
    (fun (acc : (Fin flowTableBuckets → List FlowEntry) × Sweep σ) i =>
      let c := chainAge now onExpire (acc.1 i) acc.2
      (Function.update acc.1 i c.1, c.2))
    (t.buckets, { ctx := ctx, count := t.count, freed := [] })
  ({ t with buckets := r.1, count := r.2.count }, r.2.ctx, r.2.freed)

def flowTableDestroy (t : FlowTable) : FlowTable × List NdpiFlowPtr :=
  ({ t with buckets := fun _ => [], count := 0 },
    (List.finRange flowTableBuckets).flatMap fun i =>
      (t.buckets i).flatMap fun e => e.ndpiFlow.toList)

namespace FlowTable

/-- The entry of the key of `f` after a caller has changed it to `f`. -/
def store (t : FlowTable) (f : FlowEntry) : FlowTable :=
  { t with buckets := ChainedTable.replace FlowEntry.key flowKeyHash t.buckets f }

/-- All entries of the table. -/
def entries (t : FlowTable) : Multiset FlowEntry := ChainedTable.entries t.buckets

/-- The entries that a sweep at `now` expires, in the order of the sweep. -/
def idle (t : FlowTable) (now : ℚ) : List FlowEntry :=
  (List.finRange flowTableBuckets).flatMap fun i => (t.buckets i).filter (FlowEntry.isIdle now)

end FlowTable

/-! ### The loops over chains -/

theorem chainLookup_eq (k : FlowKey) (l : List FlowEntry) :
    chainLookup k l = l.find? fun e => e.key = k := by
  induction l with
  | nil => rfl
  | cons e rest ih => by_cases he : e.key = k <;> simp [chainLookup, flowKeyEq_iff, he, ih]

theorem flowTableLookup_eq (t : FlowTable) (k : FlowKey) :
    flowTableLookup t k = ChainedTable.lookup FlowEntry.key flowKeyHash t.buckets k :=
  chainLookup_eq k _

theorem chainRemove_eq (k : FlowKey) (l : List FlowEntry) :
    chainRemove k l =
      (l.find? fun e => e.key = k).map fun e => (e, l.eraseP fun e => e.key = k) := by
  induction l with
  | nil => rfl
  | cons e rest ih =>
    by_cases he : e.key = k
    · simp [chainRemove, flowKeyEq_iff, he]
    · simp [chainRemove, flowKeyEq_iff, he, ih, Function.comp_def]

section Age

variable {σ : Type*} (now : ℚ) (onExpire : Option (FlowEntry → σ → σ))

/-- One chain of the sweep: the idle entries expire in order and the others stay. -/
theorem chainAge_eq (l : List FlowEntry) (s : Sweep σ) :
    chainAge now onExpire l s = (l.filter fun e => !e.isIdle now,
      (l.filter fun e => e.isIdle now).foldl (fun s e => s.expire onExpire e) s) := by
  induction l generalizing s with
  | nil => rfl
  | cons e rest ih => cases he : e.isIdle now <;> simp [chainAge, he, ih]

/-- The sweep over the buckets listed in `l`. -/
theorem foldl_chainAge_eq (l : List (Fin flowTableBuckets)) (hl : l.Nodup)
    (b : Fin flowTableBuckets → List FlowEntry) (s : Sweep σ) :
    l.foldl (fun (acc : (Fin flowTableBuckets → List FlowEntry) × Sweep σ) i =>
        let c := chainAge now onExpire (acc.1 i) acc.2
        (Function.update acc.1 i c.1, c.2)) (b, s) =
      (fun i => if i ∈ l then (b i).filter fun e => !e.isIdle now else b i,
        (l.flatMap fun i => (b i).filter fun e => e.isIdle now).foldl
          (fun s e => s.expire onExpire e) s) := by
  induction l generalizing b s with
  | nil => simp
  | cons i l ih =>
    obtain ⟨hi, hl⟩ := List.nodup_cons.mp hl
    rw [List.foldl_cons, ih hl, chainAge_eq, List.flatMap_cons, List.foldl_append]
    refine Prod.ext (funext fun j => ?_) ?_
    · by_cases hj : j = i
      · subst hj
        simp [hi]
      · simp [hj]
    · refine congrArg (fun l => List.foldl _ _ l) (List.flatMap_congr fun j hj => ?_)
      have hji : j ≠ i := fun h => hi (h ▸ hj)
      rw [Function.update_of_ne hji]

/-- **The sweep.** It keeps the entries that are not idle and runs the callback once on each
idle entry. -/
theorem flowTableAge_eq (t : FlowTable) (ctx : σ) :
    flowTableAge t now onExpire ctx =
      ({ t with
          buckets := ChainedTable.retain (fun e => !e.isIdle now) t.buckets
          count := t.count - UInt32.ofNat (t.idle now).length },
        (t.idle now).foldl (fun c e => onExpire.elim c fun f => f e c) ctx,
        (t.idle now).flatMap fun e => e.ndpiFlow.toList) := by
  have hsweep (l : List FlowEntry) (s : Sweep σ) :
      l.foldl (fun s e => s.expire onExpire e) s =
        { ctx := l.foldl (fun c e => onExpire.elim c fun f => f e c) s.ctx
          count := s.count - UInt32.ofNat l.length
          freed := s.freed ++ l.flatMap fun e => e.ndpiFlow.toList } := by
    induction l generalizing s with
    | nil => simp
    | cons e l ih =>
      rw [List.foldl_cons, ih]
      simp only [Sweep.expire, List.foldl_cons, List.length_cons, List.flatMap_cons,
        List.append_assoc, UInt32.ofNat_add, Sweep.mk.injEq, true_and, and_true]
      rw [sub_sub, add_comm]
      rfl
  rw [flowTableAge, foldl_chainAge_eq now onExpire _ (List.nodup_finRange _), hsweep]
  simp only [List.mem_finRange, if_true, List.nil_append]
  rfl

end Age

namespace FlowTable

theorem coe_idle (t : FlowTable) (now : ℚ) :
    (t.idle now : Multiset FlowEntry) = t.entries.filter fun e => e.isIdle now = true := by
  rw [entries, ← ChainedTable.entries_retain, ← ChainedTable.coe_flatMap_finRange]
  rfl

/-! ### Valid tables -/

/-- The invariant of the table: the chains are well formed, and `count` is the number of
entries. -/
structure Valid (t : FlowTable) : Prop where
  wellFormed : ChainedTable.WellFormed FlowEntry.key flowKeyHash t.buckets
  count_eq : t.count = UInt32.ofNat (Multiset.card t.entries)

theorem valid_init : flowTableInit.Valid where
  wellFormed := ChainedTable.wellFormed_empty
  count_eq := by simp [entries, flowTableInit]

variable {t : FlowTable}

theorem Valid.lookup_eq_some_iff (h : t.Valid) {k : FlowKey} {e : FlowEntry} :
    flowTableLookup t k = some e ↔ e ∈ t.entries ∧ e.key = k := by
  rw [flowTableLookup_eq, h.wellFormed.lookup_eq_some_iff, entries]

theorem Valid.nodup_keys (h : t.Valid) : (t.entries.map FlowEntry.key).Nodup :=
  h.wellFormed.nodup_keys

theorem Valid.nodup_entries (h : t.Valid) : t.entries.Nodup :=
  h.nodup_keys.of_map

theorem Valid.key_lookup (h : t.Valid) {k : FlowKey} {e : FlowEntry}
    (he : flowTableLookup t k = some e) : e.key = k :=
  (h.lookup_eq_some_iff.mp he).2

/-- The entry that `flow_table_get_or_create` makes. -/
def fresh (k : FlowKey) (now : ℤ) : FlowEntry :=
  { key := k, state := .new, firstSeen := now, lastSeen := now }

theorem getOrCreate_of_some {k : FlowKey} {e : FlowEntry} (h : flowTableLookup t k = some e)
    (calloc : Bool) (now : ℤ) : flowTableGetOrCreate t k calloc now = (t, some e) := by
  simp [flowTableGetOrCreate, h]

/-- The table with the entry that `flow_table_get_or_create` makes. -/
def insert (t : FlowTable) (e : FlowEntry) : FlowTable where
  buckets := ChainedTable.push FlowEntry.key flowKeyHash t.buckets e
  count := t.count + 1
  totalCreated := t.totalCreated + 1

theorem getOrCreate_of_none {k : FlowKey} (h : flowTableLookup t k = none) (calloc : Bool)
    (now : ℤ) : flowTableGetOrCreate t k calloc now =
      if calloc then (t.insert (fresh k now), some (fresh k now)) else (t, none) := by
  simp only [flowTableGetOrCreate, h]
  rfl

theorem entries_insert (t : FlowTable) (e : FlowEntry) :
    (t.insert e).entries = e ::ₘ t.entries :=
  ChainedTable.entries_push e

theorem lookup_insert (t : FlowTable) (e : FlowEntry) (k : FlowKey) :
    flowTableLookup (t.insert e) k = if e.key = k then some e else flowTableLookup t k := by
  rw [flowTableLookup_eq, flowTableLookup_eq]
  exact ChainedTable.lookup_push e k

theorem Valid.insert (h : t.Valid) {e : FlowEntry} (he : flowTableLookup t e.key = none) :
    (t.insert e).Valid where
  wellFormed := h.wellFormed.push (by rw [← flowTableLookup_eq, he])
  count_eq := by
    rw [entries_insert, Multiset.card_cons, UInt32.ofNat_add, ← h.count_eq]
    rfl

@[simp] theorem totalCreated_store (f : FlowEntry) : (t.store f).totalCreated = t.totalCreated :=
  rfl

theorem lookup_store_of_ne (f : FlowEntry) {k : FlowKey} (hk : f.key ≠ k) :
    flowTableLookup (t.store f) k = flowTableLookup t k := by
  rw [flowTableLookup_eq, flowTableLookup_eq]
  exact ChainedTable.lookup_replace_of_ne f hk

theorem lookup_store_self (t : FlowTable) (f : FlowEntry) :
    flowTableLookup (t.store f) f.key = (flowTableLookup t f.key).map fun _ => f := by
  rw [flowTableLookup_eq, flowTableLookup_eq]
  exact ChainedTable.lookup_replace_self f

/-- A changed entry leaves every other entry as it was. -/
theorem Valid.exists_entries_store (h : t.Valid) {e f : FlowEntry}
    (he : flowTableLookup t f.key = some e) :
    ∃ R : Multiset FlowEntry, t.entries = e ::ₘ R ∧ (t.store f).entries = f ::ₘ R :=
  h.wellFormed.exists_entries_replace (by rwa [← flowTableLookup_eq])

theorem card_entries_store (t : FlowTable) (f : FlowEntry) :
    Multiset.card (t.store f).entries = Multiset.card t.entries :=
  ChainedTable.card_entries_replace f

theorem Valid.store (h : t.Valid) (f : FlowEntry) : (t.store f).Valid where
  wellFormed := h.wellFormed.replace f
  count_eq := by rw [card_entries_store, ← h.count_eq]; rfl

/-- What is left after a sweep. -/
def sweep (t : FlowTable) (now : ℚ) : FlowTable :=
  { t with
    buckets := ChainedTable.retain (fun e => !e.isIdle now) t.buckets
    count := t.count - UInt32.ofNat (t.idle now).length }

theorem entries_sweep (t : FlowTable) (now : ℚ) :
    (t.sweep now).entries = t.entries.filter fun e => ¬ e.isIdle now = true := by
  rw [entries, sweep, ChainedTable.entries_retain, entries]
  exact Multiset.filter_congr fun e _ => by simp

theorem entries_eq_sweep_add_idle (t : FlowTable) (now : ℚ) :
    t.entries = (t.sweep now).entries + (t.idle now : Multiset FlowEntry) := by
  rw [entries_sweep, coe_idle, add_comm, Multiset.filter_add_not]

theorem Valid.sweep (h : t.Valid) (now : ℚ) : (t.sweep now).Valid where
  wellFormed := h.wellFormed.retain _
  count_eq := by
    have hcard := congrArg (fun n => UInt32.ofNat (Multiset.card n))
      (t.entries_eq_sweep_add_idle now)
    simp only [Multiset.card_add, UInt32.ofNat_add, Multiset.coe_card, ← h.count_eq] at hcard
    change t.count - _ = _
    rw [hcard, add_sub_cancel_right]

theorem Valid.lookup_sweep (h : t.Valid) (now : ℚ) (k : FlowKey) :
    flowTableLookup (t.sweep now) k =
      (flowTableLookup t k).filter fun e => !e.isIdle now := by
  rw [flowTableLookup_eq, flowTableLookup_eq]
  exact h.wellFormed.lookup_retain _ k

/-! ### Removal -/

/-- The table without the entry of `k`. -/
def erase (t : FlowTable) (k : FlowKey) : FlowTable :=
  { t with
    buckets := ChainedTable.retain (fun e => e.key ≠ k) t.buckets
    count := t.count - UInt32.ofNat (flowTableLookup t k).toList.length }

theorem Valid.remove_eq (h : t.Valid) (k : FlowKey) :
    flowTableRemove t k =
      (t.erase k, (flowTableLookup t k).toList.flatMap fun e => e.ndpiFlow.toList) := by
  have hbuckets : Function.update t.buckets (flowKeyHash k)
      ((t.buckets (flowKeyHash k)).eraseP fun e => e.key = k) =
        ChainedTable.retain (fun e => e.key ≠ k) t.buckets :=
    h.wellFormed.remove_eq_retain k
  rw [flowTableRemove, chainRemove_eq, erase, flowTableLookup, chainLookup_eq]
  cases hf : (t.buckets (flowKeyHash k)).find? fun e => e.key = k with
  | none =>
    have hid : (t.buckets (flowKeyHash k)).eraseP (fun e => e.key = k) =
        t.buckets (flowKeyHash k) :=
      List.eraseP_of_forall_not fun e he => by simpa using (List.find?_eq_none.mp hf) e he
    rw [hid, Function.update_eq_self] at hbuckets
    rw [← hbuckets]
    simp
  | some e => simp [hbuckets]

theorem entries_erase (t : FlowTable) (k : FlowKey) :
    (t.erase k).entries = t.entries.filter fun e => e.key ≠ k := by
  rw [entries, erase, ChainedTable.entries_retain, entries]
  exact Multiset.filter_congr fun e _ => by simp

/-- The entries with key `k` are the one that lookup finds. -/
theorem Valid.filter_key_eq (h : t.Valid) (k : FlowKey) :
    t.entries.filter (fun e => e.key = k) =
      ((flowTableLookup t k).toList : Multiset FlowEntry) := by
  refine (Multiset.Nodup.ext (h.nodup_entries.filter _) ?_).mpr fun e => ?_
  · cases flowTableLookup t k <;> simp
  · rw [Multiset.mem_filter, ← h.lookup_eq_some_iff]
    cases flowTableLookup t k <;> simp [eq_comm]

theorem Valid.erase (h : t.Valid) (k : FlowKey) : (t.erase k).Valid where
  wellFormed := h.wellFormed.retain _
  count_eq := by
    have hsplit : t.entries =
        (t.erase k).entries + ((flowTableLookup t k).toList : Multiset _) := by
      rw [entries_erase, ← h.filter_key_eq, add_comm, Multiset.filter_add_not]
    have hcard := congrArg (fun n => UInt32.ofNat (Multiset.card n)) hsplit
    simp only [Multiset.card_add, UInt32.ofNat_add, Multiset.coe_card, ← h.count_eq] at hcard
    change t.count - _ = _
    rw [hcard, add_sub_cancel_right]

theorem Valid.lookup_erase (h : t.Valid) (k k' : FlowKey) :
    flowTableLookup (t.erase k) k' = if k = k' then none else flowTableLookup t k' := by
  rw [flowTableLookup_eq, flowTableLookup_eq]
  refine (h.wellFormed.lookup_retain _ k').trans ?_
  cases hl : ChainedTable.lookup FlowEntry.key flowKeyHash t.buckets k' with
  | none => simp
  | some e =>
    have he : e.key = k' := h.wellFormed.key_lookup hl
    by_cases hk : k = k' <;> simp [Option.filter, he, hk, Ne.symm]

end FlowTable

end NdpiObserve
