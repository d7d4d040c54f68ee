import NdpiObserve.Daemon.DnsMemo

/-!
# The two sources of hostnames

A verdict of nDPI is overridden by the hostname of the flow, which is its own one or the one that
the DNS cache has for its destination. The code asks the service tables for names of the DNS cache
only, so the sources answer the same id exactly for the names that these tables do not have. The
memo of the cache and the labels made in between make no difference.

## Main definitions

* `overridden`: the application of a flow after its hostname was looked at.
* `Call.hostId`: the id of the hostname of a flow.

## Main results

* `Call.overrideByHost_app`: the application after the override.
* `EngineRun.override_run`: both verdicts of nDPI in reachable engines.
-/

namespace NdpiObserve

open Machine

/-- The application `app` of a flow after a hostname with the id was looked at. -/
def overridden (app id : UInt16) : UInt16 :=
  if id ≠ 0 ∧ id ≠ app ∧ app.toNat < numApps then id else app

theorem overridden_zero (app : UInt16) : overridden app 0 = app :=
  if_neg fun h => h.1 rfl

/-- A hostname of the DNS cache that the service tables have gets their id, every other one the
id that it gets from the flow's own traffic. -/
theorem sourceId_dns (env : Env) (labels : List Bytes) (host : Bytes) :
    sourceId env labels (host, true) =
      if dnsMatchApp host = 0 then sourceId env labels (host, false) else dnsMatchApp host := by
  dsimp only [sourceId, resolveAfresh]
  split <;> rfl

namespace Call

variable {env : Env} {c : Call}

/-- The hostname that overrides a verdict when nDPI found `serverName`, and whether it comes from
the DNS cache. -/
def hostSource (serverName : Bytes) (time : ℤ) (c : Call) : Option (Bytes × Bool) :=
  (c.keepHost serverName).overrideHost time

/-- The id of the hostname that overrides a verdict, `0` if there is no hostname. -/
def hostId (env : Env) (serverName : Bytes) (time : ℤ) (c : Call) : UInt16 :=
  ((c.hostSource serverName time).map (sourceId env c.engine.dynLabels)).getD 0

/-- The hostname depends on that of the entry, its destination and the DNS cache. -/
theorem hostSource_congr {d : Call} (hcache : d.engine.dnsCache = c.engine.dnsCache)
    (hsni : d.flow.sni = c.flow.sni) (hkey : d.flow.key = c.flow.key) (serverName : Bytes)
    (time : ℤ) : d.hostSource serverName time = c.hostSource serverName time := by
  rw [hostSource, hostSource, keepHost, keepHost]
  split
  case isTrue =>
    dsimp only [overrideHost]
    rw [hcache, hkey]
  case isFalse =>
    dsimp only [overrideHost]
    rw [hcache, hkey, hsni]

theorem hostSource_detected (a : Answers) (serverName : Bytes) (time : ℤ) (c : Call) :
    (c.detected a).hostSource serverName time = c.hostSource serverName time :=
  hostSource_congr (c := c) (d := c.detected a) rfl rfl rfl serverName time

theorem hostSource_guessed (a : Answers) (serverName : Bytes) (time : ℤ) (c : Call) :
    (c.guessed a).hostSource serverName time = c.hostSource serverName time :=
  hostSource_congr (c := c) (d := c.guessed a) rfl rfl rfl serverName time

theorem keepHost_app (serverName : Bytes) (c : Call) :
    (c.keepHost serverName).flow.appId = c.flow.appId := by
  rw [keepHost]
  split <;> rfl

theorem resolveDns_flow (env : Env) (c : Call) (host : Bytes) :
    (c.resolveDns env host).1.flow = c.flow := by
  obtain ⟨labels, cache, h⟩ := exists_resolveDns_eq env c host
  rw [h]
  rfl

theorem moveCredit_app (m : CreditMethod) (aiId : UInt16) (fromDns : Bool) (c : Call) :
    (c.moveCredit m aiId fromDns).flow.appId = overridden c.flow.appId aiId := by
  rw [moveCredit, overridden]
  split <;> rfl

/-- **The override.** -/
theorem overrideByHost_app (h : c.Coherent env) (m : CreditMethod) (serverName : Bytes)
    (time : ℤ) : (c.overrideByHost env m serverName time).flow.appId =
      overridden c.flow.appId (c.hostId env serverName time) := by
  have hkept : (c.keepHost serverName).Coherent env := h.of_memos_eq (memos_keepHost _ c)
  have hlabels : (c.keepHost serverName).engine.dynLabels = c.engine.dynLabels :=
    congrArg Prod.fst (memos_keepHost serverName c)
  rw [overrideByHost, ← keepHost, hostId, hostSource]
  dsimp only
  cases hhost : (c.keepHost serverName).overrideHost time with
  | none => exact (keepHost_app serverName c).trans (overridden_zero c.flow.appId).symm
  | some x =>
    obtain ⟨host, fromDns⟩ := x
    have hid := (resolve_eq hkept hhost).1
    have hflow : (if fromDns then (c.keepHost serverName).resolveDns env host
        else (c.keepHost serverName).resolveSni env host).1.flow =
          (c.keepHost serverName).flow := by
      cases fromDns with
      | true => exact resolveDns_flow env _ host
      | false => rfl
    dsimp only at hid ⊢
    rw [moveCredit_app, hflow, keepHost_app, hid, hlabels]
    rfl

end Call

namespace EngineRun

/-- **The two sources.** In every reachable engine, in the verdict and in the guess of nDPI, the
application is overridden by the id of the hostname, wherever that comes from and whatever was
remembered. A name of the DNS cache that the service tables have gets their id; on every other
name the sources agree. -/
theorem override_run (env : Env) (iface : Bytes) (ml dump : Bool) (ops : List EngineOp)
    (evt : FlowEvent) (a : Answers) (f : FlowEntry) :
    let e := (run (step env) (start iface ml dump) ops).engine
    let c := Call.scanned evt a { engine := e.bodyStart evt a, flow := f }
    (c.ndpiVerdict env a).flow.appId =
        overridden a.detection.best (c.hostId env a.detectionHost a.timeHost) ∧
      (c.giveupStep env a).flow.appId =
        (if a.giveup.isKnown then
          overridden a.giveup.best (c.hostId env a.giveupHost a.timeHost)
        else c.flow.appId) ∧
      ∀ host, sourceId env c.engine.dynLabels (host, true) =
        if dnsMatchApp host = 0 then sourceId env c.engine.dynLabels (host, false)
        else dnsMatchApp host := by
  intro e c
  have hstart : Call.Coherent env { engine := e.bodyStart evt a, flow := f } :=
    coherent_bodyStart (coherent_run env iface ml dump ops) evt a
  have hc : c.Coherent env := hstart.of_memos_eq (Call.memos_scanned evt a _)
  have hdetected : (c.detected a).Coherent env := hc.of_memos_eq rfl
  have hguessed : (c.guessed a).Coherent env := hc.of_memos_eq rfl
  refine ⟨?_, ?_, fun host => sourceId_dns env c.engine.dynLabels host⟩
  · rw [Call.ndpiVerdict_eq, Call.hostId, ← Call.hostSource_detected a]
    exact Call.overrideByHost_app hdetected .ndpi a.detectionHost a.timeHost
  · rw [Call.giveupStep_eq, Call.hostId, ← Call.hostSource_guessed a]
    split
    · exact Call.overrideByHost_app hguessed .giveup a.giveupHost a.timeHost
    · rfl

/-- The hostname claude.ai has the id 300 when it comes from the DNS cache, and a label of its own
when it comes from the flow. -/
theorem source_matters : ¬ ∀ (env : Env) (iface : Bytes) (ml dump : Bool) (ops : List EngineOp)
    (evt : FlowEvent) (a : Answers) (f : FlowEntry) (server : Bytes),
    let e := (run (step env) (start iface ml dump) ops).engine
    let c := Call.scanned evt a { engine := e.bodyStart evt a, flow := f }
    e.dynLabels.length < 64 → cString server ≠ [] →
    c.overrideHost a.timeHost = some (strncpy server 79, true) →
      (c.ndpiVerdict env { a with detectionHost := [] }).flow.appId =
          (c.ndpiVerdict env { a with detectionHost := server }).flow.appId ∧
        (c.giveupStep env { a with giveupHost := [] }).flow.appId =
          (c.giveupStep env { a with giveupHost := server }).flow.appId := by
  intro h
  have hsame := (h default (text "eth0") true false [.process claudeEvent (-1) {}] visitEvent
    { detection := { app := 91 } } (FlowTable.fresh visitEvent.key 0) (text "claude.ai")
    (by decide +kernel) (by decide +kernel) (by decide +kernel)).1
  exact absurd hsame (by decide +kernel)

end EngineRun

end NdpiObserve
