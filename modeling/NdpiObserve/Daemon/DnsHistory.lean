import NdpiObserve.Daemon.DnsCache

/-!
# What the DNS cache remembers

The cache is direct-mapped: an address has one slot, and an insertion overwrites what the slot
held. So a slot remembers the last insertion into it, and a lookup answers from that insertion
alone. The application that the engine stores in an entry changes no lookup.

## Main definitions

* `DnsOp`, `DnsOp.apply`: what is done to the cache.
* `lastInto`: the last insertion into a slot.
* `DnsCacheEntry.Remembers`: an entry holds an insertion.

## Main results

* `DnsCache.lookup_of_remembers`: a lookup answers from what the slot remembers.
* `remembers_lastInto`: every slot of a cache holds the last insertion into it.
* `dnsCacheLookup_foldl`: what a lookup returns.
-/

namespace NdpiObserve

/-- What is done to the cache: an answer is inserted at a time, or the application of a slot is
stored. -/
inductive DnsOp where
  | insert (a : DnsAnswer) (time : ℕ)
  | resolve (slot : Fin dnsCacheSize) (app : UInt16)

def DnsOp.apply (c : DnsCache) : DnsOp → DnsCache
  | .insert a time => dnsCacheInsert c a.ip a.name a.ttl time
  | .resolve slot app => Function.update c slot { c slot with cachedAppId := app }

/-- The insertion that is made into a slot. -/
def DnsOp.into (slot : Fin dnsCacheSize) : DnsOp → Option (DnsAnswer × ℕ)
  | .insert a time => if dnsHash a.ip = slot then some (a, time) else none
  | .resolve _ _ => none

/-- The last insertion into a slot. -/
def lastInto (slot : Fin dnsCacheSize) (ops : List DnsOp) : Option (DnsAnswer × ℕ) :=
  (ops.filterMap (DnsOp.into slot)).getLast?

theorem lastInto_concat (slot : Fin dnsCacheSize) (ops : List DnsOp) (op : DnsOp) :
    lastInto slot (ops ++ [op]) = (op.into slot).or (lastInto slot ops) := by
  rw [lastInto, List.filterMap_append, List.getLast?_append]
  cases h : op.into slot with
  | none => simp [h, lastInto]
  | some i => simp [h]

theorem mem_of_lastInto_eq_some {slot : Fin dnsCacheSize} {ops : List DnsOp} {a : DnsAnswer}
    {time : ℕ} (h : lastInto slot ops = some (a, time)) :
    .insert a time ∈ ops ∧ dnsHash a.ip = slot := by
  obtain ⟨op, hop, hinto⟩ := List.mem_filterMap.mp (List.mem_of_getLast? h)
  cases op with
  | resolve => cases hinto
  | insert b t =>
    rw [DnsOp.into] at hinto
    split at hinto
    case isFalse => cases hinto
    case isTrue hslot =>
      obtain ⟨rfl, rfl⟩ := Prod.mk.inj (Option.some.inj hinto)
      exact ⟨hop, hslot⟩

/-- The entry holds the insertion, or, if there was none, no hostname. -/
def DnsCacheEntry.Remembers (e : DnsCacheEntry) : Option (DnsAnswer × ℕ) → Prop
  | none => e.hostname = []
  | some (a, time) => e.ip = a.ip ∧ e.expires.toNat = time + min a.ttl.toNat 300 ∧
      e.hostname = strncpy a.name 79

/-- An insertion into an entry. -/
theorem remembers_insert (a : DnsAnswer) {time : ℕ} (htime : time < 2 ^ 32 - 300) :
    DnsCacheEntry.Remembers
      { ip := a.ip, expires := timeStamp time + (if a.ttl > 300 then 300 else a.ttl)
        cachedAppId := 0, hostname := strncpy a.name 79 } (some (a, time)) := by
  refine ⟨rfl, ?_, rfl⟩
  have hstamp : (timeStamp time).toNat = time := by
    rw [timeStamp, UInt32.toNat_ofNat']
    omega
  have hthree : (300 : UInt32).toNat = 300 := rfl
  have httl : (if a.ttl > 300 then 300 else a.ttl).toNat = min a.ttl.toNat 300 := by
    split
    case isTrue h =>
      rw [gt_iff_lt, UInt32.lt_iff_toNat_lt, hthree] at h
      rw [hthree, min_eq_right h.le]
    case isFalse h =>
      rw [gt_iff_lt, UInt32.lt_iff_toNat_lt, hthree, not_lt] at h
      rw [min_eq_left h]
  rw [UInt32.toNat_add, hstamp, httl]
  omega

/-- **The history of a slot.** Every slot holds the last insertion into it. -/
theorem remembers_lastInto (ops : List DnsOp)
    (htimes : ∀ a time, .insert a time ∈ ops → time < 2 ^ 32 - 300) (slot : Fin dnsCacheSize) :
    (ops.foldl DnsOp.apply (fun _ => {}) slot).Remembers (lastInto slot ops) := by
  induction ops using List.reverseRecOn with
  | nil => rfl
  | append_singleton ops op ih =>
    specialize ih fun a time h => htimes a time (List.mem_append_left _ h)
    rw [List.foldl_concat, lastInto_concat]
    generalize ops.foldl DnsOp.apply (fun _ => {}) = c at ih
    cases op with
    | insert a time =>
      have htime := htimes a time (List.mem_append_right _ (List.mem_singleton_self _))
      rw [DnsOp.apply, dnsCacheInsert, DnsOp.into]
      by_cases hslot : dnsHash a.ip = slot
      · rw [if_pos hslot, ← hslot, Function.update_self]
        exact remembers_insert a htime
      · rw [if_neg hslot, Function.update_of_ne (Ne.symm hslot)]
        exact ih
    | resolve slot' app =>
      rw [DnsOp.apply, DnsOp.into, Option.none_or]
      rcases eq_or_ne slot slot' with rfl | hne
      · rw [Function.update_self]
        cases hlast : lastInto slot ops with
        | none => rwa [hlast] at ih
        | some i => rwa [hlast] at ih
      · rwa [Function.update_of_ne hne]

/-- The answer of an insertion to a lookup of `ip` at `now`. -/
def answerTo (ip : UInt32) (now : ℕ) : DnsAnswer × ℕ → Option Bytes
  | (a, time) =>
    if a.ip = ip ∧ cString a.name ≠ [] ∧ now < time + min a.ttl.toNat 300 then
      some ((cString a.name).take 79)
    else none

/-- **A lookup** answers from what the slot remembers. -/
theorem DnsCache.lookup_of_remembers {c : DnsCache} {ip : UInt32} {o : Option (DnsAnswer × ℕ)}
    (h : (c (dnsHash ip)).Remembers o) {now : ℕ} (hnow : now < 2 ^ 32) :
    dnsCacheLookup c ip now = o.bind (answerTo ip now) := by
  have hstamp : (timeStamp now).toNat = now := by
    rw [timeStamp, UInt32.toNat_ofNat']
    omega
  rw [dnsCacheLookup, dnsCacheLookupEntry]
  cases o with
  | none =>
    have hempty : (c (dnsHash ip)).hostname = [] := h
    simp [hempty]
  | some x =>
    obtain ⟨a, time⟩ := x
    obtain ⟨hip, hexpires, hhost⟩ := h
    have hname : strncpy a.name 79 ≠ [] ↔ cString a.name ≠ [] := by
      rw [strncpy, ne_eq, ne_eq, List.take_eq_nil_iff]
      simp
    have hlive : timeStamp now < (c (dnsHash ip)).expires ↔ now < time + min a.ttl.toNat 300 := by
      rw [UInt32.lt_iff_toNat_lt, hstamp, hexpires]
    dsimp only [Option.bind_some, answerTo]
    simp only [hip, hhost, hname, hlive]
    split
    · rw [Option.map_some, hhost, strncpy]
    · rfl

/-- **Lookups.** A lookup in a cache that was filled from its zeroed image answers from the last
insertion into the slot of the address: with the first 79 characters of its name, if it was an
insertion for this address with a name and is not too old. What it returns was inserted for the
address. -/
theorem dnsCacheLookup_foldl (ops : List DnsOp)
    (htimes : ∀ a time, .insert a time ∈ ops → time < 2 ^ 32 - 300) (ip : UInt32) (now : ℕ)
    (hnow : now < 2 ^ 32) :
    let c := ops.foldl DnsOp.apply fun _ => {}
    dnsCacheLookup c ip now = (lastInto (dnsHash ip) ops).bind (answerTo ip now) ∧
      ∀ host, dnsCacheLookup c ip now = some host →
        ∃ a time, .insert a time ∈ ops ∧ a.ip = ip ∧ host = (cString a.name).take 79 ∧
          now < time + min a.ttl.toNat 300 := by
  intro c
  have hlookup : dnsCacheLookup c ip now = (lastInto (dnsHash ip) ops).bind (answerTo ip now) :=
    DnsCache.lookup_of_remembers (remembers_lastInto ops htimes (dnsHash ip)) hnow
  refine ⟨hlookup, fun host hhost => ?_⟩
  rw [hlookup, Option.bind_eq_some_iff] at hhost
  obtain ⟨⟨a, time⟩, hlast, hanswer⟩ := hhost
  rw [answerTo] at hanswer
  split at hanswer
  case isFalse => cases hanswer
  case isTrue h =>
    exact ⟨a, time, (mem_of_lastInto_eq_some hlast).1, h.1, (Option.some.inj hanswer).symm, h.2.2⟩

/-- Two addresses with one slot: 1.2.3.4, whose application is stored, and then 1.2.0.64. -/
def slotOps : List DnsOp :=
  [.insert ⟨0x04030201, text "abc.io", 120⟩ 1000, .resolve (dnsHash 0x04030201) 400,
    .insert ⟨0x40000201, text "claude.ai", 120⟩ 1010]

/-- The second address has taken the slot of the first. -/
theorem dnsCacheLookup_foldl_slot :
    dnsHash 0x04030201 = dnsHash 0x40000201 ∧
      dnsCacheLookup (slotOps.foldl DnsOp.apply fun _ => {}) 0x04030201 1060 = none ∧
      dnsCacheLookup (slotOps.foldl DnsOp.apply fun _ => {}) 0x40000201 1060 =
        some (text "claude.ai") := by
  have htimes : ∀ a time, .insert a time ∈ slotOps → time < 2 ^ 32 - 300 := by
    intro a time h
    simp only [slotOps, List.mem_cons, DnsOp.insert.injEq, reduceCtorEq, List.not_mem_nil, or_false,
      false_or] at h
    omega
  have hlookup (ip : UInt32) := (dnsCacheLookup_foldl slotOps htimes ip 1060 (by decide)).1
  exact ⟨by decide +kernel, (hlookup _).trans (by decide +kernel),
    (hlookup _).trans (by decide +kernel)⟩

end NdpiObserve
