import NdpiObserve.Daemon.Labels
import NdpiObserve.Daemon.Packet

/-!
# The engine

The engine of `daemon/ndpi_engine.c`. A call of `ndpi_engine_process` works on the engine and
on the entry of the event's flow; `Call` is this pair, with the calls that it makes outside and
the credits it moves, in order (`Effect`). What the outside answers is an argument (`Answers`):
the allocations, the clock at each place that reads it, nDPI's verdicts and the hostname nDPI
leaves in its flow structure. `verdict_map_fd` is `fd`; a write to the verdict map is an effect.

## Main definitions

* `Engine`, `Effect`, `Answers`, `Call`.
* `onFlowExpire`, `Call.creditVerdict`: the two places that add a flow to the totals.
* `ndpiEngineProcess`, `ndpiEngineAge`: one event, and the sweep of idle flows.
-/

namespace NdpiObserve

/-! ### State, effects and answers -/

/-- `ndpi_protocol`. -/
structure NdpiProtocol where
  app : UInt16 := ndpiProtocolUnknown
  master : UInt16 := ndpiProtocolUnknown
  category : UInt16 := 0
deriving DecidableEq

/-- nDPI knows the application or at least its master protocol. -/
def NdpiProtocol.isKnown (p : NdpiProtocol) : Bool :=
  p.app ≠ ndpiProtocolUnknown || p.master ≠ ndpiProtocolUnknown

/-- The application, or the master protocol when that is unknown. -/
def NdpiProtocol.best (p : NdpiProtocol) : UInt16 :=
  if p.app ≠ ndpiProtocolUnknown then p.app else p.master

/-- One row of the feature dump: the label and the 15 numbers in the order of the header. -/
structure DumpRow where
  label : Bytes
  features : NdpiMlFeatures

/-- Number of applications, the length of the counter arrays. -/
abbrev numApps : ℕ := 512

/-- Number of categories, the length of the category arrays. -/
abbrev numCats : ℕ := 64

/-- `ndpi_engine_t`. The counters `app_classified_<method>` are `appClassified` at the method;
`dynLabels` lists the `dyn_label_count` labels in use; `dumpFeatures` lists the rows written when
a dump file is open. -/
structure Engine where
  flows : FlowTable
  pktsScanned : UInt64 := 0
  pktsCached : UInt64 := 0
  ndpiCalls : UInt64 := 0
  flowsClassified : UInt64 := 0
  flowsGuessed : UInt64 := 0
  flowsMlClassified : UInt64 := 0
  flowsGaveUp : UInt64 := 0
  mlEnabled : Bool := true
  dnsCache : DnsCache := fun _ => {}
  dumpFeatures : Option (List DumpRow) := none
  iface : Bytes := []
  dynLabels : List Bytes := []
  appBytes : Fin numApps → UInt64 := fun _ => 0
  appPackets : Fin numApps → UInt64 := fun _ => 0
  appFlows : Fin numApps → UInt64 := fun _ => 0
  appClassified : CreditMethod → Fin numApps → UInt64 := fun _ _ => 0
  catBytes : Fin numCats → UInt64 := fun _ => 0
  catPackets : Fin numCats → UInt64 := fun _ => 0
  catFlows : Fin numCats → UInt64 := fun _ => 0

/-- The engine after `ndpi_engine_init`. -/
def ndpiEngineInit : Engine := { flows := flowTableInit, mlEnabled := true }

def ndpiEngineSetMl (e : Engine) (enabled : Bool) : Engine := { e with mlEnabled := enabled }

/-- The dump file is opened for appending, if that succeeds. -/
def ndpiEngineSetDumpFeatures (e : Engine) (opened : Bool) : Engine :=
  { e with dumpFeatures := if opened then some [] else none }

/-- What a call does outside the engine and the credits it moves: allocation and release of nDPI
flow structures, the calls of nDPI and of the model, the write to the verdict map, and each
increment and decrement of a counter that the code also decrements. -/
inductive Effect where
  | ndpiFlowMalloc (p : NdpiFlowPtr)
  | ndpiFlowFree (p : NdpiFlowPtr)
  | detectionProcessPacket (pkt : Bytes) (ms : ℚ)
  | detectionGiveup
  | mlClassify (feat : NdpiMlFeatures)
  | verdictMapUpdate (k : FlowKey) (app : UInt16)
  | credit (m : CreditMethod) (app : UInt16)
  | debit (m : CreditMethod) (app : UInt16)
  | guessed
  | unguessed

/-- What the outside answers during one call of `ndpi_engine_process`. -/
structure Answers where
  /-- `calloc` of a flow entry succeeds. -/
  calloc : Bool := true
  /-- The clock at the `j`-th insertion into the DNS cache. -/
  timeDns : ℕ → ℤ := fun _ => 0
  /-- The clock when an entry is created. -/
  timeCreated : ℤ := 0
  /-- The clock read into `last_seen`. -/
  timeSeen : ℤ := 0
  /-- The clock of the DNS lookup for the verdict, and of the one for MCP. -/
  timeHost : ℤ := 0
  timeMcp : ℤ := 0
  /-- `ndpi_flow_malloc`. -/
  ndpiMalloc : Option NdpiFlowPtr := some 0
  /-- `ndpi_detection_process_packet`, and `host_server_name` after it. -/
  detection : NdpiProtocol := {}
  detectionHost : Bytes := []
  /-- `ndpi_detection_giveup`, and `host_server_name` after it. -/
  giveup : NdpiProtocol := {}
  giveupHost : Bytes := []
  /-- What the stack held where `tmp_pkt` is placed. -/
  stack : ℕ → UInt8 := fun _ => 0

/-! ### Counters -/

/-- `if (i < n) c[i] += x`. -/
def addAt {n : ℕ} (c : Fin n → UInt64) (i : ℕ) (x : UInt64) : Fin n → UInt64 :=
  if h : i < n then Function.update c ⟨i, h⟩ (c ⟨i, h⟩ + x) else c

/-- The flow added to the totals of its application and, inside the same guard, of its
category. -/
def Engine.addTotals (env : Env) (e : Engine) (f : FlowEntry) : Engine :=
  let app := f.appId.toNat
  let cat := (ndpiEngineCategoryFor env f.appId f.sni).toNat
  { e with
    appBytes := addAt e.appBytes app f.bytes
    appPackets := addAt e.appPackets app f.packets
    appFlows := addAt e.appFlows app 1
    catBytes := if app < numApps then addAt e.catBytes cat f.bytes else e.catBytes
    catPackets := if app < numApps then addAt e.catPackets cat f.packets else e.catPackets
    catFlows := if app < numApps then addAt e.catFlows cat 1 else e.catFlows }

/-- The callback of the sweep. -/
def onFlowExpire (env : Env) (f : FlowEntry) (e : Engine) : Engine := e.addTotals env f

/-- `if (app < 512) app_classified_<m>[app] += x`. -/
def Engine.addClassified (e : Engine) (m : CreditMethod) (app : UInt16) (x : UInt64) : Engine :=
  { e with
    appClassified := Function.update e.appClassified m (addAt (e.appClassified m) app.toNat x) }

/-! ### One call of `ndpi_engine_process` -/

/-- The engine and the flow's entry during a call, and the effects so far. -/
structure Call where
  engine : Engine
  flow : FlowEntry
  effects : List Effect := []

namespace Call

def emit (c : Call) (x : Effect) : Call := { c with effects := c.effects ++ [x] }

/-- `if (f->app_id < 512) e->app_classified_<m>[f->app_id]++`. -/
def credit (c : Call) (m : CreditMethod) : Call :=
  { c with
    engine := c.engine.addClassified m c.flow.appId 1
    effects := c.effects ++
      if c.flow.appId.toNat < numApps then [.credit m c.flow.appId] else [] }

/-- `if (f->app_id < 512) e->app_classified_<m>[f->app_id]--`. -/
def debit (c : Call) (m : CreditMethod) : Call :=
  { c with
    engine := c.engine.addClassified m c.flow.appId (-1)
    effects := c.effects ++
      if c.flow.appId.toNat < numApps then [.debit m c.flow.appId] else [] }

/-- The hostname that overrides the verdict, and whether it comes from the DNS cache. -/
def overrideHost (c : Call) (time : ℤ) : Option (Bytes × Bool) :=
  if c.flow.sni ≠ [] then some (c.flow.sni, false)
  else
    (dnsCacheLookupEntry c.engine.dnsCache c.flow.key.dstIp time).map fun dce =>
      (dce.hostname, true)

/-- The application of a hostname of the DNS cache, remembered in its cache entry. -/
def resolveDns (env : Env) (c : Call) (host : Bytes) : Call × UInt16 :=
  let slot := dnsHash c.flow.key.dstIp
  let dce := c.engine.dnsCache slot
  if dce.cachedAppId ≠ 0 then (c, dce.cachedAppId)
  else
    let known := dnsMatchApp host
    let r := if known = 0 then engineGetDynApp env c.engine.dynLabels host
      else (c.engine.dynLabels, known)
    let c := { c with engine := { c.engine with dynLabels := r.1 } }
    if r.2 ≠ 0 then
      ({ c with
        engine := { c.engine with
          dnsCache := Function.update c.engine.dnsCache slot { dce with cachedAppId := r.2 } } },
        r.2)
    else (c, r.2)

/-- The application of the hostname in the flow's TLS or HTTP traffic. -/
def resolveSni (env : Env) (c : Call) (host : Bytes) : Call × UInt16 :=
  let r := engineGetDynApp env c.engine.dynLabels host
  ({ c with engine := { c.engine with dynLabels := r.1 } }, r.2)

/-- The credit of the verdict `m` moved to the hostname's application. -/
def moveCredit (c : Call) (m : CreditMethod) (aiId : UInt16) (fromDns : Bool) : Call :=
  if aiId ≠ 0 ∧ aiId ≠ c.flow.appId ∧ c.flow.appId.toNat < numApps then
    let c := c.debit m
    let c := { c with flow := { c.flow with appId := aiId } }
    let c := c.credit (if fromDns then .dns else .sni)
    { c with flow := { c.flow with creditMethod := if fromDns then .dns else .sni } }
  else c

/-- The block after both verdicts of nDPI: the hostname `serverName` that nDPI found is kept,
and the flow's hostname overrides the application. -/
def overrideByHost (env : Env) (c : Call) (m : CreditMethod) (serverName : Bytes) (time : ℤ) :
    Call :=
  let c :=
    if cString serverName ≠ [] then
      { c with flow := { c.flow with sni := strncpy serverName 79 } }
    else c
  match c.overrideHost time with
  | none => c
  | some (host, fromDns) =>
    let r := if fromDns then c.resolveDns env host else c.resolveSni env host
    r.1.moveCredit m r.2 fromDns

/-- The entry after a verdict `p` of nDPI. -/
def classify (c : Call) (p : NdpiProtocol) : Call :=
  { c with
    flow := { c.flow with
      appId := p.best, category := p.category, state := .classified, classified := 1 } }

/-- `ndpi_flow_free(f->ndpi_flow)`, and the pointer is cleared. -/
def freeNdpiFlow (c : Call) : Call :=
  { c with
    flow := { c.flow with ndpiFlow := none }
    effects := c.effects ++ c.flow.ndpiFlow.toList.map .ndpiFlowFree }

/-- nDPI classified the flow. -/
def ndpiVerdict (env : Env) (a : Answers) (c : Call) : Call :=
  let c := c.classify a.detection
  let c := { c with engine := { c.engine with flowsClassified := c.engine.flowsClassified + 1 } }
  let c := c.credit .ndpi
  let c := { c with flow := { c.flow with creditMethod := .ndpi } }
  let c := c.overrideByHost env .ndpi a.detectionHost a.timeHost
  c.freeNdpiFlow

/-- Step 1 of the last resort: nDPI's guess. -/
def giveupStep (env : Env) (a : Answers) (c : Call) : Call :=
  let c := c.emit .detectionGiveup
  if a.giveup.isKnown then
    let c := c.classify a.giveup
    let c :=
      { c with
        engine := { c.engine with
          flowsGuessed := c.engine.flowsGuessed + 1
          flowsClassified := c.engine.flowsClassified + 1 }
        effects := c.effects ++ [Effect.guessed] }
    let c := c.credit .giveup
    let c := { c with flow := { c.flow with creditMethod := .giveup } }
    c.overrideByHost env .giveup a.giveupHost a.timeHost
  else c

/-- The application that the model answers: a specific MCP service replaces the generic class,
which is dropped when the hostname names none. -/
def mlApp (env : Env) (a : Answers) (c : Call) : UInt16 :=
  let app := ndpiMlClassify env (mlFeatures env c.flow.key c.flow)
  if app = ndpiAppMcp then
    let host := if c.flow.sni ≠ [] then some c.flow.sni
      else dnsCacheLookup c.engine.dnsCache c.flow.key.dstIp a.timeMcp
    let service := matchMcpService host
    if service = ndpiAppMcp then 0 else service
  else app

/-- The credit of the earlier verdict is taken back. -/
def undoGuess (c : Call) : Call :=
  let c :=
    match c.flow.creditMethod with
    | .giveup => c.debit .giveup
    | .sni => c.debit .sni
    | .dns => c.debit .dns
    | _ => c
  { c with
    engine := { c.engine with flowsGuessed := c.engine.flowsGuessed - 1 }
    effects := c.effects ++ [Effect.unguessed] }

/-- Step 2 of the last resort: the model, which may refine the guess. -/
def mlStep (env : Env) (a : Answers) (c : Call) : Call :=
  if c.flow.mlNPkts > 0 then
    let app := c.mlApp env a
    let c := c.emit (.mlClassify (mlFeatures env c.flow.key c.flow))
    if app ≠ 0 then
      let c :=
        if c.flow.state = .classified then c.undoGuess
        else
          { c with
            engine := { c.engine with flowsClassified := c.engine.flowsClassified + 1 } }
      let c :=
        { c with
          flow := { c.flow with
            appId := app, state := .classified, classified := 1, creditMethod := .ml } }
      let c :=
        { c with
          engine := { c.engine with flowsMlClassified := c.engine.flowsMlClassified + 1 } }
      c.credit .ml
    else c
  else c

/-- The end of classification after the last packet that may be inspected. -/
def lastResort (env : Env) (a : Answers) (c : Call) : Call :=
  let c := if c.engine.mlEnabled then (c.giveupStep env a).mlStep env a else c
  let c :=
    if c.flow.state ≠ .classified then
      { c with
        flow := { c.flow with appId := 0, state := .gaveUp }
        engine := { c.engine with flowsGaveUp := c.engine.flowsGaveUp + 1 } }
    else c
  c.freeNdpiFlow

/-- `bpf_map_update_elem(verdict_map_fd, k, &app_id, BPF_ANY)`, when there is a verdict map. -/
def publish (c : Call) (fd : ℤ) (app : UInt16) : Call :=
  if fd ≥ 0 then c.emit (.verdictMapUpdate c.flow.key app) else c

/-- The flow added to the totals at its verdict. -/
def creditVerdict (env : Env) (c : Call) : Call :=
  { c with engine := c.engine.addTotals env c.flow }

/-- The row of the feature dump. -/
def dumpRow (env : Env) (c : Call) : Call :=
  match c.engine.dumpFeatures with
  | none => c
  | some rows =>
    if c.flow.mlNPkts > 0 then
      let name := (ndpiEngineAppName env c.engine.dynLabels c.flow.appId).getD []
      let label := if name = [] then text "unknown" else name
      { c with
        engine := { c.engine with
          dumpFeatures := some (rows ++
            [{ label := label, features := dumpFeatureRow env c.flow.key c.flow }]) } }
    else c

/-- What follows a verdict: it is published, credited and dumped. -/
def verdictTail (env : Env) (fd : ℤ) (c : Call) : Call :=
  ((c.publish fd c.flow.appId).creditVerdict env).dumpRow env

/-- The packet counted for a flow that is not decided. -/
def countPacket (evt : FlowEvent) (c : Call) : Call :=
  { c with
    flow := { c.flow with
      pktCount := c.flow.pktCount + 1
      bytes := c.flow.bytes + evt.pktLen.toUInt64
      packets := c.flow.packets + 1 } }

/-- A packet without captured payload: the flow is given up when it was the last one. -/
def emptyPacket (fd : ℤ) (c : Call) : Call :=
  if c.flow.pktCount ≥ flowMaxClassifyPkts then
    { c with
      flow := { c.flow with appId := 0, state := .gaveUp }
      engine := { c.engine with flowsGaveUp := c.engine.flowsGaveUp + 1 } }.publish fd 0
  else c

/-- The nDPI flow structure, allocated for the first packet with payload. -/
def ensureNdpiFlow (a : Answers) (c : Call) : Option Call :=
  match c.flow.ndpiFlow with
  | some _ => some c
  | none =>
    a.ndpiMalloc.map fun p =>
      { c with
        flow := { c.flow with ndpiFlow := some p }
        effects := c.effects ++ [.ndpiFlowMalloc p] }

/-- The nDPI flow structure could not be allocated. -/
def allocationFailed (c : Call) : Call :=
  { c with
    flow := { c.flow with state := .gaveUp }
    engine := { c.engine with flowsGaveUp := c.engine.flowsGaveUp + 1 } }

/-- The packet is accumulated and given to nDPI. -/
def scan (evt : FlowEvent) (a : Answers) (c : Call) : Call :=
  let c :=
    { c with
      engine := { c.engine with
        pktsScanned := c.engine.pktsScanned + 1
        ndpiCalls := c.engine.ndpiCalls + 1 }
      flow := mlAccumulate evt c.flow }
  c.emit (.detectionProcessPacket (patchedPacket evt a.stack) (c.flow.lastSeen * 1000))

/-- The body of `ndpi_engine_process` once the entry is at hand. -/
def process (env : Env) (evt : FlowEvent) (fd : ℤ) (a : Answers) (c : Call) : Call :=
  let c := { c with flow := { c.flow with lastSeen := a.timeSeen } }
  if c.flow.state.isTerminal then
    { c with engine := { c.engine with pktsCached := c.engine.pktsCached + 1 } }
  else
    let c := c.countPacket evt
    if evt.actualDataLen = 0 then c.emptyPacket fd
    else
      match c.ensureNdpiFlow a with
      | none => c.allocationFailed
      | some c =>
        let c := c.scan evt a
        if a.detection.isKnown then (c.ndpiVerdict env a).verdictTail env fd
        else if c.flow.pktCount ≥ flowMaxClassifyPkts then
          (c.lastResort env a).verdictTail env fd
        else c

end Call

/-- The event comes from UDP port 53, so its packet may be a DNS response. -/
def FlowEvent.fromDnsPort (evt : FlowEvent) : Bool :=
  evt.key.proto = ipprotoUdp && ntohs evt.key.srcPort = 53

/-- The DNS hook at the start of `ndpi_engine_process`. -/
def Engine.observeDns (e : Engine) (evt : FlowEvent) (a : Answers) : Engine :=
  if evt.fromDnsPort then
    { e with dnsCache := dnsCacheUpdate e.dnsCache evt.pktData evt.dataLen a.timeDns }
  else e

/-- One event. -/
def ndpiEngineProcess (env : Env) (e : Engine) (evt : FlowEvent) (fd : ℤ) (a : Answers) :
    Engine × List Effect :=
  let e := e.observeDns evt a
  let r := flowTableGetOrCreate e.flows evt.key a.calloc a.timeCreated
  let e := { e with flows := r.1 }
  match r.2 with
  | none => (e, [])
  | some f =>
    let c := Call.process env evt fd a { engine := e, flow := f }
    ({ c.engine with flows := c.engine.flows.store c.flow }, c.effects)

/-- The sweep of idle flows; the second component is the pointers passed to
`ndpi_flow_free`. -/
def ndpiEngineAge (env : Env) (e : Engine) (now : ℤ) : Engine × List NdpiFlowPtr :=
  let r := flowTableAge e.flows now (some (onFlowExpire env)) e
  ({ r.2.1 with flows := r.1 }, r.2.2)

/-- The engine is shut down. -/
def ndpiEngineDestroy (e : Engine) : Engine × List NdpiFlowPtr :=
  let r := flowTableDestroy e.flows
  ({ e with flows := r.1, dumpFeatures := none }, r.2)

end NdpiObserve
