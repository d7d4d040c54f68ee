import NdpiObserve.Daemon.DnsHistory
import NdpiObserve.Daemon.DnsMemo

/-!
# What the engine learns from DNS

Every event from UDP port 53 is parsed before its flow is looked up, and the addresses that are
found go into the DNS cache. Nothing else changes what the cache answers: neither the flows, nor the
sweeps, nor the ids that are kept in its entries. So in every run a lookup answers from the last
insertion into the slot of the address.

## Main definitions

* `FlowEvent.insertions`, `EngineOp.insertions`: what an event brings into the cache, with times.
* `DnsCache.Holds`: every slot holds the last insertion into it.

## Main results

* `Call.process_facts`: what a call leaves in the cache.
* `EngineRun.dns_lookup_run`: what a lookup returns in every run.
-/

namespace NdpiObserve

open Machine

/-! ### Insertions -/

/-- What the DNS hook inserts for an event, each insertion with its time. -/
def FlowEvent.insertions (evt : FlowEvent) (clock : ℕ → ℤ) : List (DnsAnswer × ℕ) :=
  if evt.fromDnsPort then
    match dnsParse (memoryReader evt.pktData) evt.dataLen with
    | .ok l => l.zipIdx.map fun x => (x.1, (clock x.2).toNat)
    | .error _ => []
  else []

/-- What a step inserts. -/
def EngineOp.insertions : EngineOp → List (DnsAnswer × ℕ)
  | .process evt _ a => evt.insertions a.timeDns
  | .age _ => []

/-- The clock of the step counts seconds that do not overflow with a time to live on top. -/
def EngineOp.InTime : EngineOp → Prop
  | .process _ _ a => ∀ j, 0 ≤ a.timeDns j ∧ a.timeDns j < 2 ^ 32 - 300
  | .age _ => True

/-- The last insertion into a slot. -/
def lastFor (slot : Fin dnsCacheSize) (l : List (DnsAnswer × ℕ)) : Option (DnsAnswer × ℕ) :=
  (l.filter fun x => dnsHash x.1.ip = slot).getLast?

theorem lastFor_append (slot : Fin dnsCacheSize) (l l' : List (DnsAnswer × ℕ)) :
    lastFor slot (l ++ l') = (lastFor slot l').or (lastFor slot l) := by
  rw [lastFor, List.filter_append, List.getLast?_append]
  rfl

/-- Insertions into other slots. -/
theorem lastFor_append_of_ne {slot : Fin dnsCacheSize} {l l' : List (DnsAnswer × ℕ)}
    (h : ∀ x ∈ l', dnsHash x.1.ip ≠ slot) : lastFor slot (l ++ l') = lastFor slot l := by
  have hnone : l'.filter (fun x => dnsHash x.1.ip = slot) = [] :=
    List.filter_eq_nil_iff.mpr fun x hx => by simpa using h x hx
  rw [lastFor, List.filter_append, hnone, List.append_nil, lastFor]

/-- Every slot holds the last insertion into it. -/
def DnsCache.Holds (c : DnsCache) (l : List (DnsAnswer × ℕ)) : Prop :=
  ∀ slot, (c slot).Remembers (lastFor slot l)

namespace DnsCache

variable {c : DnsCache} {l : List (DnsAnswer × ℕ)}

theorem Holds.insert (h : c.Holds l) (a : DnsAnswer) {time : ℤ} (hpos : 0 ≤ time)
    (hlt : time < 2 ^ 32 - 300) :
    Holds (dnsCacheInsert c a.ip a.name a.ttl time) (l ++ [(a, time.toNat)]) := by
  intro slot
  have hsmall : time.toNat < 2 ^ 32 - 300 := by omega
  have hremembers := remembers_insert a hsmall
  rw [Int.toNat_of_nonneg hpos] at hremembers
  rw [dnsCacheInsert, lastFor_append]
  by_cases hslot : dnsHash a.ip = slot
  · have hlast : lastFor slot [(a, time.toNat)] = some (a, time.toNat) := by simp [lastFor, hslot]
    rw [hlast, ← hslot, Function.update_self]
    exact hremembers
  · have hlast : lastFor slot [(a, time.toNat)] = none := by simp [lastFor, hslot]
    rw [hlast, Function.update_of_ne (Ne.symm hslot)]
    exact h slot

/-- The insertions of one packet. -/
theorem Holds.insertAll (h : c.Holds l) {clock : ℕ → ℤ}
    (htime : ∀ j, 0 ≤ clock j ∧ clock j < 2 ^ 32 - 300) (answers : List DnsAnswer) (j : ℕ) :
    Holds (dnsInsertAll clock j answers c)
      (l ++ (answers.zipIdx j).map fun x => (x.1, (clock x.2).toNat)) := by
  induction answers generalizing j c l with
  | nil => rwa [List.zipIdx_nil, List.map_nil, List.append_nil]
  | cons a rest ih =>
    have hrest := ih (h.insert a (htime j).1 (htime j).2) (j + 1)
    rw [List.append_assoc] at hrest
    exact hrest

end DnsCache

/-! ### What a call leaves in the cache -/

/-- The facts of an entry, without the id that is kept in it. -/
def DnsCacheEntry.facts (e : DnsCacheEntry) : UInt32 × UInt32 × Bytes :=
  (e.ip, e.expires, e.hostname)

theorem DnsCacheEntry.Remembers.of_facts_eq {e e' : DnsCacheEntry} {o : Option (DnsAnswer × ℕ)}
    (h : e.Remembers o) (heq : e'.facts = e.facts) : e'.Remembers o := by
  simp only [facts, Prod.mk.injEq] at heq
  obtain ⟨hip, hexpires, hhost⟩ := heq
  cases o with
  | none => exact hhost.trans h
  | some x => exact ⟨hip.trans h.1, (congrArg UInt32.toNat hexpires).trans h.2.1, hhost.trans h.2.2⟩

namespace Call

variable (env : Env) (c : Call)

/-- The facts of all entries. -/
def facts (c : Call) : Fin dnsCacheSize → UInt32 × UInt32 × Bytes :=
  DnsCacheEntry.facts ∘ c.engine.dnsCache

theorem facts_of_memos_eq {c d : Call} (h : c.memos = d.memos) : c.facts = d.facts :=
  congrArg (fun m : List Bytes × DnsCache => DnsCacheEntry.facts ∘ m.2) h

theorem resolveDns_facts (host : Bytes) : (c.resolveDns env host).1.facts = c.facts := by
  dsimp only [resolveDns]
  generalize (if dnsMatchApp host = 0 then engineGetDynApp env c.engine.dynLabels host
    else (c.engine.dynLabels, dnsMatchApp host)) = r
  split
  · rfl
  · split
    · dsimp only [facts]
      rw [Function.comp_update]
      exact Function.update_eq_self _ _
    · rfl

theorem overrideByHost_facts (m : CreditMethod) (serverName : Bytes) (time : ℤ) :
    (c.overrideByHost env m serverName time).facts = c.facts := by
  have hkept : (c.keepHost serverName).facts = c.facts :=
    facts_of_memos_eq (memos_keepHost serverName c)
  rw [overrideByHost, ← keepHost]
  dsimp only
  cases (c.keepHost serverName).overrideHost time with
  | none => exact hkept
  | some x =>
    obtain ⟨host, fromDns⟩ := x
    refine (facts_of_memos_eq (moveCredit_memos m _ fromDns _)).trans ?_
    cases fromDns with
    | true => exact (resolveDns_facts env _ host).trans hkept
    | false => exact hkept

/-- **A call** changes the ids in the entries of the cache at most. -/
theorem process_facts (evt : FlowEvent) (fd : ℤ) (a : Answers) :
    (c.process env evt fd a).facts = c.facts := by
  have hscanned : (c.scanned evt a).facts = c.facts := facts_of_memos_eq (memos_scanned evt a c)
  have hmemos := process_memos env evt fd a c
  split at hmemos
  · exact (facts_of_memos_eq hmemos).trans ((overrideByHost_facts env _ _ _ _).trans hscanned)
  · split at hmemos
    · exact (facts_of_memos_eq hmemos).trans ((overrideByHost_facts env _ _ _ _).trans hscanned)
    · exact facts_of_memos_eq hmemos

end Call

/-! ### Runs -/

namespace EngineRun

variable (env : Env)

/-- The DNS hook. -/
theorem holds_observeDns {e : Engine} {l : List (DnsAnswer × ℕ)} (h : e.dnsCache.Holds l)
    (evt : FlowEvent) {a : Answers} (htime : ∀ j, 0 ≤ a.timeDns j ∧ a.timeDns j < 2 ^ 32 - 300) :
    (e.observeDns evt a).dnsCache.Holds (l ++ evt.insertions a.timeDns) := by
  rw [Engine.observeDns, FlowEvent.insertions]
  cases evt.fromDnsPort with
  | false =>
    rw [if_neg Bool.false_ne_true, if_neg Bool.false_ne_true, List.append_nil]
    exact h
  | true =>
    rw [if_pos rfl, if_pos rfl]
    dsimp only [dnsCacheUpdate]
    cases dnsParse (memoryReader evt.pktData) evt.dataLen with
    | error _ => rwa [List.append_nil]
    | ok answers => exact h.insertAll htime answers 0

/-- A sweep leaves the cache alone. -/
theorem dnsCache_step_age (w : EngineRun) (now : ℤ) :
    (w.step env (.age now)).engine.dnsCache = w.engine.dnsCache := by
  obtain ⟨-, hcache, -⟩ := foldl_expire_keeps env w.engine (w.engine.flows.idle now)
  -- the engine after the callbacks is named, lest the walk over the buckets be evaluated
  obtain ⟨e, he, hstep⟩ : ∃ e, e = (w.engine.flows.idle now).foldl
      (fun e f => onFlowExpire env f e) w.engine ∧
    w.step env (.age now) = { w with
      engine := { e with flows := w.engine.flows.sweep now }
      expired := w.expired ++ w.engine.flows.idle now } := ⟨_, rfl, step_age env now⟩
  rw [← he] at hcache
  rw [hstep]
  exact hcache

/-- **A step** inserts what its event brings. -/
theorem holds_step {w : EngineRun} {l : List (DnsAnswer × ℕ)} (h : w.engine.dnsCache.Holds l)
    {op : EngineOp} (hop : op.InTime) :
    (w.step env op).engine.dnsCache.Holds (l ++ op.insertions) := by
  cases op with
  | age now =>
    rw [dnsCache_step_age, EngineOp.insertions, List.append_nil]
    exact h
  | process evt fd a =>
    have hhook := holds_observeDns h evt hop
    cases ho : w.engine.obtain evt a with
    | none =>
      rw [step_process_of_none env fd ho]
      exact hhook
    | some f =>
      have hfacts : (w.body env evt fd a f).facts = _ := Call.process_facts env _ evt fd a
      have hcache : (w.step env (.process evt fd a)).engine.dnsCache =
          (w.body env evt fd a f).engine.dnsCache := by
        rw [step_process_of_some env fd ho]
      rw [hcache]
      exact fun slot => (hhook slot).of_facts_eq (congrFun hfacts slot)

theorem holds_run (iface : Bytes) (ml dump : Bool) (ops : List EngineOp)
    (htime : ∀ op ∈ ops, op.InTime) :
    (run (step env) (start iface ml dump) ops).engine.dnsCache.Holds
      (ops.flatMap EngineOp.insertions) := by
  induction ops using List.reverseRecOn with
  | nil => exact fun _ => rfl
  | append_singleton ops op ih =>
    rw [List.forall_mem_append] at htime
    rw [run_concat, List.flatMap_append, List.flatMap_singleton]
    exact holds_step env (ih htime.1) (htime.2 op (List.mem_singleton_self op))

/-- **What the engine knows of an address.** In every run, a lookup answers from the last insertion
into the slot of the address, whatever the flows, the sweeps and the resolutions of hostnames did in
between: with the first 79 characters of its name, if it was an insertion for this address and is
not too old. -/
theorem dns_lookup_run (iface : Bytes) (ml dump : Bool) (ops : List EngineOp)
    (htime : ∀ op ∈ ops, op.InTime) (ip : UInt32) {now : ℕ} (hnow : now < 2 ^ 32) :
    dnsCacheLookup (run (step env) (start iface ml dump) ops).engine.dnsCache ip now =
      (lastFor (dnsHash ip) (ops.flatMap EngineOp.insertions)).bind (answerTo ip now) :=
  DnsCache.lookup_of_remembers (holds_run env iface ml dump ops htime _) hnow

/-- The event of a response with the address 1.2.0.64 for abc.io, whose slot is that of 1.2.3.4. -/
def slotEvent : FlowEvent :=
  { claudeEvent with
    pktData := fun i => ((dnsResponse.set 66 0).set 67 64).getD i 0
    pktLen := 68
    dataLen := 68 }

/-- The response for claude.ai with the address 1.2.3.4, a flow to it, and the other response. -/
def slotEvents : List EngineOp :=
  [.process claudeEvent (-1) {}, .process visitEvent (-1) { detection := { app := 91 } },
    .process slotEvent (-1) {}]

/-- Thirty seconds later the slot answers for the second address only. -/
theorem dns_lookup_run_slot :
    dnsCacheLookup (run (step default) (start [] true false) slotEvents).engine.dnsCache
        0x04030201 30 = none ∧
      dnsCacheLookup (run (step default) (start [] true false) slotEvents).engine.dnsCache
        0x40000201 30 = some (text "abc.io") := by
  have htime : ∀ op ∈ slotEvents, op.InTime := by
    simp [slotEvents, EngineOp.InTime]
  have hlate : 30 < 2 ^ 32 := by decide
  have hlookup (ip : UInt32) := dns_lookup_run default [] true false slotEvents htime ip hlate
  exact ⟨(hlookup _).trans (by decide +kernel), (hlookup _).trans (by decide +kernel)⟩

end EngineRun

end NdpiObserve
