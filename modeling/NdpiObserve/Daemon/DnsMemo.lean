import NdpiObserve.Daemon.DnsHook
import NdpiObserve.Daemon.LabelPool
import NdpiObserve.Library.Memo

/-!
# The memo of the DNS cache

An entry of the DNS cache keeps the id that its hostname was resolved to. The id comes from the
service tables, from nDPI or from the pool of labels; the pool only grows and an id that it has
answered stands for its label ever after, so the id is the one that the hostname would get now.
A new hostname in the slot clears it.

## Main definitions

* `resolveAfresh`: the resolution of a hostname of the DNS cache without its memo.
* `Engine.Coherent`: the memos of the engine.

## Main results

* `givenForGood_resolveAfresh`: an id that is not zero is given for good.
* `Call.process_memos`: where a call changes labels and memos.
* `Call.process_coherent`: a call keeps the memos coherent.
* `EngineRun.coherent_run`: the memos are coherent in every reachable engine.
-/

namespace NdpiObserve

open Machine Memo InternPool

/-! ### Resolving a hostname -/

/-- `dns_match_app`, then `engine_get_dyn_app`. -/
def resolveAfresh (env : Env) (host : Bytes) (labels : List Bytes) : List Bytes × UInt16 :=
  let known := dnsMatchApp host
  if known = 0 then engineGetDynApp env labels host else (labels, known)

/-- The id of a hostname, which comes from the DNS cache or from the flow's own traffic. -/
def sourceId (env : Env) (labels : List Bytes) : Bytes × Bool → UInt16
  | (host, true) => (resolveAfresh env host labels).2
  | (host, false) => (engineGetDynApp env labels host).2

/-- The pool gives its ids for good. -/
theorem givenForGood_engineGetDynApp (env : Env) :
    GivenForGood List.Nodup (· <+: ·) (· ≠ 0) fun host labels =>
      engineGetDynApp env labels host where
  later {labels} host hl := by
    rcases engineGetDynApp_forms env host with h | h | h
    · rw [h]
    · rw [h]
    · rw [h]
      exact prefix_intern 64 hl _
  keeps {labels} host hl := by
    rcases engineGetDynApp_forms env host with h | h | h
    · rwa [h]
    · rwa [h]
    · rw [h]
      exact nodup_intern 64 hl _
  again {labels labels'} host hl hl' hok hpre := by
    rcases engineGetDynApp_forms env host with h | h | h
    · rw [h] at hok
      exact absurd rfl hok
    · simp only [h]
    · rw [h labels] at hok hpre
      obtain ⟨i, hi⟩ := exists_place hok
      rw [h labels', h labels, intern_of_prefix hl hi hpre hl', hi]

/-- The ids of hostnames of the DNS cache are given for good. -/
theorem givenForGood_resolveAfresh (env : Env) :
    GivenForGood List.Nodup (· <+: ·) (· ≠ 0) (resolveAfresh env) where
  later host hl := by
    rw [resolveAfresh]
    split
    · exact (givenForGood_engineGetDynApp env).later host hl
    · exact List.prefix_rfl
  keeps host hl := by
    rw [resolveAfresh]
    split
    · exact (givenForGood_engineGetDynApp env).keeps host hl
    · exact hl
  again host hl hl' hok hpre := by
    by_cases hknown : dnsMatchApp host = 0
    · simp only [resolveAfresh, if_pos hknown] at hok hpre ⊢
      exact (givenForGood_engineGetDynApp env).again host hl hl' hok hpre
    · simp only [resolveAfresh, if_neg hknown]

/-! ### The memos -/

/-- The hostname of an entry and the id kept for it. -/
def DnsCacheEntry.memo (ce : DnsCacheEntry) : Bytes × UInt16 := (ce.hostname, ce.cachedAppId)

/-- The memos of a DNS cache are coherent with the labels. -/
structure MemoCoherent (env : Env) (labels : List Bytes) (cache : DnsCache) : Prop where
  nodup : labels.Nodup
  memo : Coherent (· ≠ 0) (resolveAfresh env) labels (DnsCacheEntry.memo ∘ cache)

def Engine.Coherent (env : Env) (e : Engine) : Prop := MemoCoherent env e.dynLabels e.dnsCache

variable {env : Env}

/-- A new hostname in a slot. -/
theorem MemoCoherent.insert {labels : List Bytes} {cache : DnsCache}
    (h : MemoCoherent env labels cache) (ip : UInt32) (name : Bytes) (ttl : UInt32) (now : ℤ) :
    MemoCoherent env labels (dnsCacheInsert cache ip name ttl now) := by
  refine ⟨h.nodup, ?_⟩
  rw [dnsCacheInsert, Function.comp_update]
  exact h.memo.forget (dnsHash ip) (strncpy name 79) (not_not.mpr rfl)

theorem MemoCoherent.insertAll {labels : List Bytes} {cache : DnsCache}
    (h : MemoCoherent env labels cache) (clock : ℕ → ℤ) (j : ℕ) (l : List DnsAnswer) :
    MemoCoherent env labels (dnsInsertAll clock j l cache) := by
  induction l generalizing j cache with
  | nil => exact h
  | cons x l ih => exact ih (h.insert x.ip x.name x.ttl (clock j)) (j + 1)

theorem Engine.Coherent.observeDns {e : Engine} (h : e.Coherent env) (evt : FlowEvent)
    (a : Answers) : (e.observeDns evt a).Coherent env := by
  rw [Engine.observeDns]
  split
  case isFalse => exact h
  case isTrue =>
    rw [Engine.Coherent]
    dsimp only
    rw [dnsCacheUpdate]
    cases dnsParse (memoryReader evt.pktData) evt.dataLen with
    | error _ => exact h
    | ok l => exact h.insertAll a.timeDns 0 l

/-! ### Calls -/

namespace Call

/-- The part of a call that has the labels and the memos. -/
def memos (c : Call) : List Bytes × DnsCache := (c.engine.dynLabels, c.engine.dnsCache)

def Coherent (env : Env) (c : Call) : Prop := c.engine.Coherent env

variable {c : Call}

theorem Coherent.of_memos_eq {d : Call} (h : c.Coherent env) (heq : d.memos = c.memos) :
    d.Coherent env := by
  obtain ⟨hlabels, hcache⟩ := Prod.mk.inj heq
  rw [Call.Coherent, Engine.Coherent, hlabels, hcache]
  exact h

/-- The hostname in the flow's traffic is resolved in the pool. -/
theorem Coherent.resolveSni (h : c.Coherent env) (host : Bytes) :
    (c.resolveSni env host).1.Coherent env := by
  have hpool := givenForGood_engineGetDynApp env
  exact ⟨hpool.keeps host h.nodup, h.memo.later (givenForGood_resolveAfresh env) h.nodup
    (hpool.keeps host h.nodup) (hpool.later host h.nodup)⟩

/-- What `resolveDns` does: the id kept in the slot, or the hostname resolved and kept. -/
theorem resolveDns_eq (h : c.Coherent env) {host : Bytes}
    (hhost : host = (c.engine.dnsCache (dnsHash c.flow.key.dstIp)).hostname) :
    (c.resolveDns env host).2 = (resolveAfresh env host c.engine.dynLabels).2 ∧
      (c.resolveDns env host).1.Coherent env := by
  have hres := givenForGood_resolveAfresh env
  dsimp only [Call.resolveDns]
  split
  case isTrue hmemo =>
    have hsame := h.memo (dnsHash c.flow.key.dstIp) hmemo
    subst hhost
    exact ⟨(congrArg Prod.snd hsame).symm, h⟩
  case isFalse hmemo =>
    have hfresh : (if dnsMatchApp host = 0 then engineGetDynApp env c.engine.dynLabels host
        else (c.engine.dynLabels, dnsMatchApp host)) =
      resolveAfresh env host c.engine.dynLabels := rfl
    rw [hfresh]
    have hkept := h.memo.remember hres (fun _ => List.prefix_rfl) h.nodup
      (dnsHash c.flow.key.dstIp) host
    have hasked := h.memo.ask hres h.nodup host
    split
    case isTrue hid =>
      refine ⟨rfl, hres.keeps host h.nodup, ?_⟩
      dsimp only
      rw [Function.comp_update]
      subst hhost
      exact hkept
    case isFalse => exact ⟨rfl, hres.keeps host h.nodup, hasked⟩

/-- The hostname that nDPI found is kept in the entry. -/
def keepHost (serverName : Bytes) (c : Call) : Call :=
  if cString serverName ≠ [] then
    { c with flow := { c.flow with sni := strncpy serverName 79 } }
  else c

theorem memos_keepHost (serverName : Bytes) (c : Call) :
    (c.keepHost serverName).memos = c.memos := by
  rw [keepHost]
  split <;> rfl

/-- A hostname that overrides a verdict from the DNS cache is that of the slot. -/
theorem overrideHost_dns {time : ℤ} {host : Bytes} (h : c.overrideHost time = some (host, true)) :
    host = (c.engine.dnsCache (dnsHash c.flow.key.dstIp)).hostname := by
  rw [overrideHost] at h
  split at h
  case isTrue =>
    have hsource := (Prod.mk.inj (Option.some.inj h)).2
    cases hsource
  case isFalse =>
    obtain ⟨dce, hdce, heq⟩ := Option.map_eq_some_iff.mp h
    rw [dnsCacheLookupEntry] at hdce
    split at hdce
    case isTrue =>
      rw [← Option.some.inj hdce] at heq
      exact (Prod.mk.inj heq).1.symm
    case isFalse => cases hdce

theorem moveCredit_memos (m : CreditMethod) (aiId : UInt16) (fromDns : Bool) (c : Call) :
    (c.moveCredit m aiId fromDns).memos = c.memos := by
  rw [moveCredit]
  split <;> rfl

/-- The hostname of a flow is resolved, wherever it comes from. -/
theorem resolve_eq (h : c.Coherent env) {time : ℤ} {host : Bytes} {fromDns : Bool}
    (hhost : c.overrideHost time = some (host, fromDns)) :
    let r := if fromDns then c.resolveDns env host else c.resolveSni env host
    r.2 = sourceId env c.engine.dynLabels (host, fromDns) ∧ r.1.Coherent env := by
  cases fromDns with
  | true => exact resolveDns_eq h (overrideHost_dns hhost)
  | false => exact ⟨rfl, h.resolveSni host⟩

theorem Coherent.overrideByHost (h : c.Coherent env) (m : CreditMethod) (serverName : Bytes)
    (time : ℤ) : (c.overrideByHost env m serverName time).Coherent env := by
  have hkept : (c.keepHost serverName).Coherent env := h.of_memos_eq (memos_keepHost _ c)
  rw [Call.overrideByHost, ← keepHost]
  dsimp only
  cases hhost : (c.keepHost serverName).overrideHost time with
  | none => exact hkept
  | some x =>
    obtain ⟨host, fromDns⟩ := x
    exact (resolve_eq hkept hhost).2.of_memos_eq (moveCredit_memos m _ fromDns _)

/-- A verdict of nDPI before the flow's hostname is looked at. -/
def detected (a : Answers) (c : Call) : Call :=
  let c := c.classify a.detection
  let c := { c with engine := { c.engine with flowsClassified := c.engine.flowsClassified + 1 } }
  let c := c.credit .ndpi
  { c with flow := { c.flow with creditMethod := .ndpi } }

theorem ndpiVerdict_eq (env : Env) (a : Answers) (c : Call) : c.ndpiVerdict env a =
    ((c.detected a).overrideByHost env .ndpi a.detectionHost a.timeHost).freeNdpiFlow :=
  rfl

/-- A guess of nDPI before the flow's hostname is looked at. -/
def guessed (a : Answers) (c : Call) : Call :=
  let c := c.emit .detectionGiveup
  let c := c.classify a.giveup
  let c :=
    { c with
      engine := { c.engine with
        flowsGuessed := c.engine.flowsGuessed + 1
        flowsClassified := c.engine.flowsClassified + 1 }
      effects := c.effects ++ [Effect.guessed] }
  let c := c.credit .giveup
  { c with flow := { c.flow with creditMethod := .giveup } }

theorem giveupStep_eq (env : Env) (a : Answers) (c : Call) : c.giveupStep env a =
    if a.giveup.isKnown then
      (c.guessed a).overrideByHost env .giveup a.giveupHost a.timeHost
    else c.emit .detectionGiveup :=
  rfl

theorem memos_mlStep (env : Env) (a : Answers) (c : Call) : (c.mlStep env a).memos = c.memos := by
  dsimp only [mlStep]
  split
  · split
    · split
      · dsimp only [undoGuess]
        split <;> rfl
      · rfl
    · rfl
  · rfl

theorem memos_lastResort (env : Env) (a : Answers) (c : Call) : (c.lastResort env a).memos =
    if c.engine.mlEnabled = true ∧ a.giveup.isKnown = true then
      ((c.guessed a).overrideByHost env .giveup a.giveupHost a.timeHost).memos
    else c.memos := by
  have hfinish (d : Call) : (if d.flow.state ≠ .classified then { d with
      flow := { d.flow with appId := 0, state := .gaveUp }
      engine := { d.engine with flowsGaveUp := d.engine.flowsGaveUp + 1 } }
      else d).freeNdpiFlow.memos = d.memos := by
    split <;> rfl
  refine (hfinish _).trans ?_
  by_cases hml : c.engine.mlEnabled = true
  · rw [if_pos hml, memos_mlStep, giveupStep_eq]
    by_cases hknown : a.giveup.isKnown = true
    · rw [if_pos hknown, if_pos ⟨hml, hknown⟩]
    · rw [if_neg hknown, if_neg fun h => hknown h.2]
      rfl
  · rw [if_neg hml, if_neg fun h => hml h.1]

theorem memos_scanned (evt : FlowEvent) (a : Answers) (c : Call) :
    (c.scanned evt a).memos = c.memos := by
  obtain ⟨ptr, l, -, -, heq⟩ := exists_scanned_eq evt a c
  rw [heq]
  rfl

theorem mlEnabled_scanned (evt : FlowEvent) (a : Answers) (c : Call) :
    (c.scanned evt a).engine.mlEnabled = c.engine.mlEnabled := by
  obtain ⟨ptr, l, -, -, heq⟩ := exists_scanned_eq evt a c
  rw [heq]

theorem memos_verdictTail (env : Env) (fd : ℤ) (c : Call) :
    (c.verdictTail env fd).memos = c.memos := by
  obtain ⟨rows, heq⟩ := exists_verdictTail_eq env fd c
  rw [heq]
  rfl

/-- **The labels and the memos of a call.** They change where a hostname overrides a verdict of
nDPI or its guess, and nowhere else. -/
theorem process_memos (env : Env) (evt : FlowEvent) (fd : ℤ) (a : Answers) (c : Call) :
    (c.process env evt fd a).memos =
      if c.flow.exit evt a = .classified then
        (((c.scanned evt a).detected a).overrideByHost env .ndpi a.detectionHost a.timeHost).memos
      else if c.flow.exit evt a = .lastResort ∧ c.engine.mlEnabled = true ∧
          a.giveup.isKnown = true then
        (((c.scanned evt a).guessed a).overrideByHost env .giveup a.giveupHost a.timeHost).memos
      else c.memos := by
  rw [process_eq]
  cases c.flow.exit evt a with
  | cached | emptyPending | allocFailed => rfl
  | emptyGaveUp =>
    dsimp only [giveUpEmpty, publish]
    split <;> rfl
  | classified =>
    rw [if_pos rfl, memos_verdictTail, ndpiVerdict_eq]
    rfl
  | pending => exact memos_scanned evt a c
  | lastResort =>
    rw [if_neg Exit.noConfusion, memos_verdictTail, memos_lastResort, mlEnabled_scanned,
      memos_scanned]
    simp only [true_and]

/-- **The memos in a call.** -/
theorem process_coherent (h : c.Coherent env) (evt : FlowEvent) (fd : ℤ) (a : Answers) :
    (c.process env evt fd a).Coherent env := by
  have hscanned : (c.scanned evt a).Coherent env := h.of_memos_eq (memos_scanned evt a c)
  have hdetected : ((c.scanned evt a).detected a).Coherent env := hscanned.of_memos_eq rfl
  have hguessed : ((c.scanned evt a).guessed a).Coherent env := hscanned.of_memos_eq rfl
  have hmemos := process_memos env evt fd a c
  split at hmemos
  · exact (hdetected.overrideByHost .ndpi a.detectionHost a.timeHost).of_memos_eq hmemos
  · split at hmemos
    · exact (hguessed.overrideByHost .giveup a.giveupHost a.timeHost).of_memos_eq hmemos
    · exact h.of_memos_eq hmemos

end Call

/-! ### Runs -/

theorem Engine.coherent_start (env : Env) (iface : Bytes) (ml dump : Bool) :
    (Engine.start iface ml dump).Coherent env :=
  ⟨List.nodup_nil, fun _ hid => absurd rfl hid⟩

namespace EngineRun

/-- The sweep keeps labels, memos and dump. -/
theorem foldl_expire_keeps (env : Env) (e : Engine) (l : List FlowEntry) :
    let e' := l.foldl (fun e f => onFlowExpire env f e) e
    e'.dynLabels = e.dynLabels ∧ e'.dnsCache = e.dnsCache ∧ e'.dumpFeatures = e.dumpFeatures := by
  induction l generalizing e with
  | nil => exact ⟨rfl, rfl, rfl⟩
  | cons f l ih => exact ih (onFlowExpire env f e)

/-- The body of a call starts with coherent memos. -/
theorem coherent_bodyStart {e : Engine} (h : e.Coherent env) (evt : FlowEvent) (a : Answers) :
    (e.bodyStart evt a).Coherent env :=
  h.observeDns evt a

/-- **The memos in a step.** -/
theorem coherent_step {w : EngineRun} (h : w.engine.Coherent env) (op : EngineOp) :
    (w.step env op).engine.Coherent env := by
  cases op with
  | age now =>
    obtain ⟨hlabels, hcache, -⟩ := foldl_expire_keeps env w.engine (w.engine.flows.idle now)
    rw [step_age, Engine.Coherent]
    dsimp only
    rw [hlabels, hcache]
    exact h
  | process evt fd a =>
    cases hf : w.engine.obtain evt a with
    | none =>
      rw [step_process_of_none env fd hf]
      exact h.observeDns evt a
    | some f =>
      rw [step_process_of_some env fd hf]
      exact Call.process_coherent (c := { engine := w.engine.bodyStart evt a, flow := f })
        (coherent_bodyStart h evt a) evt fd a

/-- **Coherent memos.** The memos of every reachable engine are coherent. -/
theorem coherent_run (env : Env) (iface : Bytes) (ml dump : Bool) (ops : List EngineOp) :
    (run (step env) (start iface ml dump) ops).engine.Coherent env :=
  run_induction (P := fun w : EngineRun => w.engine.Coherent env)
    (Engine.coherent_start env iface ml dump) (fun _ op hw => coherent_step hw op) ops

/-- The id that an entry of the DNS cache keeps is the one that its hostname would be resolved to,
and resolving it would change nothing. -/
theorem resolveAfresh_cached (env : Env) (iface : Bytes) (ml dump : Bool) (ops : List EngineOp)
    (i : Fin dnsCacheSize) :
    let e := (run (step env) (start iface ml dump) ops).engine
    (e.dnsCache i).cachedAppId ≠ 0 →
      resolveAfresh env (e.dnsCache i).hostname e.dynLabels =
        (e.dynLabels, (e.dnsCache i).cachedAppId) :=
  (coherent_run env iface ml dump ops).memo i

end EngineRun

/-- A DNS response with the address 1.2.3.4 for claude.ai, from its IP header on. -/
def claudeResponse : Bytes :=
  [0x45, 0, 0, 71, 0, 0, 0, 0, 64, 17, 0, 0, 8, 8, 8, 8, 10, 0, 0, 1,
    0, 53, 0x9C, 0x40, 0, 51, 0, 0, 1, 2, 0x81, 0x80, 0, 1, 0, 1, 0, 0, 0, 0,
    6, 99, 108, 97, 117, 100, 101, 2, 97, 105, 0, 0, 1, 0, 1,
    0xC0, 12, 0, 1, 0, 1, 0, 0, 0, 60, 0, 4, 1, 2, 3, 4]

/-- The event of `claudeResponse`. -/
def claudeEvent : FlowEvent where
  key :=
    { srcIp := 0x08080808, dstIp := 0x0100000A, srcPort := 0x3500, dstPort := 0x409C
      proto := ipprotoUdp }
  pktData i := claudeResponse.getD i 0
  pktLen := 71
  dataLen := 71

/-- The response, and a flow to the address that nDPI takes for TLS: the slot keeps an id. -/
theorem EngineRun.resolveAfresh_cached_visit :
    let e := (run (step default) (start (text "eth0") true false)
      [.process claudeEvent (-1) {},
        .process visitEvent (-1) { detection := { app := 91 } }]).engine
    resolveAfresh default (e.dnsCache (dnsHash 0x04030201)).hostname e.dynLabels =
      (e.dynLabels, (e.dnsCache (dnsHash 0x04030201)).cachedAppId) :=
  resolveAfresh_cached default (text "eth0") true false _ (dnsHash 0x04030201) (by decide +kernel)

end NdpiObserve
