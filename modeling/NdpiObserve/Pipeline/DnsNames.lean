import NdpiObserve.Daemon.DnsLearning
import NdpiObserve.Daemon.DnsPackets
import NdpiObserve.Daemon.HostnameSources
import NdpiObserve.Daemon.MlRescue
import NdpiObserve.Kernel.FrontEnds

/-!
# From a DNS response to a flow

A response in wire format that a front-end captured whole brings the addresses of its records into
the DNS cache, under what the parser keeps of the name in its question. When nDPI classifies a flow
to one of these addresses and finds no server name in it, the flow gets the application of that
name, as long as the record lives and no later answer has taken its slot.

## Main results

* `DnsPacket.insertions_eq`: what a response brings.
* `EngineRun.dns_names_flow_run`: the application of a flow to an address of the response.
-/

namespace NdpiObserve

open Machine

/-! ### The event of a response -/

/-- An event that holds bytes of a packet has them at the start of its buffer. -/
theorem Produced.data_of_captured {evt : FlowEvent} {n : ℕ} (h : Produced evt n) {bs : Bytes}
    (hbytes : evt.captured = bs) (hne : bs ≠ []) :
    evt.dataLen.toNat = bs.length ∧ ∀ i < bs.length, evt.pktData i = bs.getD i 0 := by
  have hn : n ≠ 0 := by
    cases h with
    | ringbuf s key ipTot ts stale h =>
      rintro hzero
      rw [captured_sendToRingbuf, hzero, List.take_zero] at hbytes
      exact hne hbytes.symm
    | simple frame behind evt n h =>
      have hmin := (simpleEvent_dataLen h).2.1
      omega
  obtain ⟨hdata, hmax⟩ := h.dataLen_of_pos hn
  have hactual : evt.actualDataLen.toNat = n := by
    refine actualDataLen_of_captured (UInt32.toNat_inj.mp ?_) hmax
    rw [hdata, UInt32.toNat_ofNat']
    omega
  rw [FlowEvent.captured, hactual] at hbytes
  have hlength : bs.length = n := by
    rw [← hbytes, List.length_map, List.length_range]
  refine ⟨hdata.trans hlength.symm, fun i hi => ?_⟩
  rw [List.getD_eq_getElem _ _ hi]
  simp only [← hbytes, List.getElem_map, List.getElem_range]

/-- The packet is a response to a single question, of whose name the parser keeps `host`: the first
79 bytes, up to a zero byte. Behind these, no byte of the name is zero and none but the last is
taken for a pointer. The address record `r` follows the records `rs`, and no later record of the
packet takes its slot. -/
structure DnsPacket.Names (p : DnsPacket) (host : Bytes) (rs : List Dns.Record) (r : Dns.Record) :
    Prop where
  response : p.message.IsResponse
  question : ∃ q, p.message.questions = [q] ∧ Passes ((Dns.dotted q.name.labels).drop 79) ∧
    cString ((Dns.dotted q.name.labels).take 79) = host
  host_ne : host ≠ []
  address : r.type = 1 ∧ r.rdata.length = 4
  last : ∃ rs', p.message.answers = rs ++ r :: rs' ∧ ∀ r' ∈ rs', r'.type = 1 → r'.rdata.length = 4 →
    dnsHash (addressOf r'.rdata) ≠ dnsHash (addressOf r.rdata)

namespace DnsPacket.Names

variable {p : DnsPacket} {host : Bytes} {rs : List Dns.Record} {r : Dns.Record}

theorem host_zero (h : p.Names host rs r) : 0 ∉ host := by
  obtain ⟨q, -, -, hhost⟩ := h.question
  exact hhost ▸ zero_notMem_cString _

theorem host_length (h : p.Names host rs r) : host.length ≤ 79 := by
  obtain ⟨q, -, -, hhost⟩ := h.question
  rw [← hhost]
  exact (List.takeWhile_sublist _).length_le.trans (List.length_take_le _ _)

/-- The insertion of the record. -/
theorem recordAnswer_eq (h : p.Names host rs r) :
    recordAnswer host r = some { ip := addressOf r.rdata, name := host, ttl := r.ttl } :=
  if_pos h.address

variable {evt : FlowEvent} {n : ℕ}

/-- The insertions of the response. -/
theorem insertions_eq (h : p.Names host rs r) (hevt : Produced evt n)
    (hwhole : evt.captured = p.bytes) (hport : evt.fromDnsPort = true) (clock : ℕ → ℤ) :
    evt.insertions clock = (p.message.answers.filterMap (recordAnswer host)).zipIdx.map
      fun x => (x.1, (clock x.2).toNat) := by
  obtain ⟨q, hq, hpasses, hhost⟩ := h.question
  have hparse := p.dnsParse_single h.response hq hpasses
  rw [hhost, if_neg h.host_ne] at hparse
  have hbytes : p.bytes ≠ [] := by
    have hmin := p.min
    have hlength : p.bytes.length = p.headers.length + p.message.wire.length := List.length_append
    rw [ne_eq, ← List.length_eq_zero_iff]
    omega
  obtain ⟨hdata, hbuffer⟩ := hevt.data_of_captured hwhole hbytes
  have hdataLen : evt.dataLen = p.len := UInt32.toNat_inj.mp (hdata.trans p.toNat_len.symm)
  have hreader : p.reader = captureReader p.bytes.length evt.pktData := by
    funext i
    rw [reader, captureReader, captureReader]
    split
    case isTrue hi => rw [hbuffer i hi]
    case isFalse => rfl
  rw [hreader, ← hdataLen] at hparse
  rw [FlowEvent.insertions, if_pos hport, dnsParse_memoryReader hparse]

/-- The last insertion of the response into the slot of the record is that of the record. -/
theorem lastFor_insertions (h : p.Names host rs r) (hevt : Produced evt n)
    (hwhole : evt.captured = p.bytes) (hport : evt.fromDnsPort = true) (clock : ℕ → ℤ) :
    lastFor (dnsHash (addressOf r.rdata)) (evt.insertions clock) =
      some ({ ip := addressOf r.rdata, name := host, ttl := r.ttl },
        (clock (rs.filterMap (recordAnswer host)).length).toNat) := by
  obtain ⟨rs', hanswers, hlast⟩ := h.last
  have hother (x : DnsAnswer) (hx : x ∈ rs'.filterMap (recordAnswer host)) :
      dnsHash x.ip ≠ dnsHash (addressOf r.rdata) := by
    obtain ⟨r', hr', heq⟩ := List.mem_filterMap.mp hx
    rw [recordAnswer] at heq
    split at heq
    case isFalse => cases heq
    case isTrue haddress =>
      rw [← Option.some.inj heq]
      exact hlast r' hr' haddress.1 haddress.2
  rw [h.insertions_eq hevt hwhole hport, hanswers, List.filterMap_append,
    List.filterMap_cons_some h.recordAnswer_eq, List.zipIdx_append, List.zipIdx_cons,
    List.map_append, List.map_cons, ← List.singleton_append, ← List.append_assoc,
    lastFor_append_of_ne, lastFor_append]
  · have hself : lastFor (dnsHash (addressOf r.rdata))
        [(({ ip := addressOf r.rdata, name := host, ttl := r.ttl } : DnsAnswer),
          (clock (0 + (rs.filterMap (recordAnswer host)).length)).toNat)] =
        some ({ ip := addressOf r.rdata, name := host, ttl := r.ttl },
          (clock (0 + (rs.filterMap (recordAnswer host)).length)).toNat) := by
      simp [lastFor]
    rw [hself, Option.some_or, Nat.zero_add]
  · intro x hx
    obtain ⟨y, hy, rfl⟩ := List.mem_map.mp hx
    exact hother y.1 (List.fst_mem_of_mem_zipIdx hy)

end DnsPacket.Names

/-! ### The flows to its addresses -/

namespace Call

variable {env : Env} {evt : FlowEvent} {a : Answers} {c : Call}

/-- A flow in which nDPI finds no server name gets the application of the name that the DNS cache
has for its destination. -/
theorem ndpiVerdict_app_of_lookup (hc : c.Coherent env) (hsni : c.flow.sni = [])
    (hserver : cString a.detectionHost = []) {host : Bytes}
    (hlookup : dnsCacheLookup c.engine.dnsCache c.flow.key.dstIp a.timeHost = some host) :
    (c.ndpiVerdict env a).flow.appId =
      overridden a.detection.best (sourceId env c.engine.dynLabels (host, true)) := by
  have hdetected : (c.detected a).Coherent env := hc.of_memos_eq rfl
  have hsource : c.hostSource a.detectionHost a.timeHost = some (host, true) := by
    rw [hostSource, keepHost, if_neg (not_not.mpr hserver), overrideHost, if_neg (not_not.mpr hsni)]
    obtain ⟨dce, hdce, hhost⟩ := Option.map_eq_some_iff.mp hlookup
    rw [hdce, Option.map_some, hhost]
  have happ := overrideByHost_app hdetected .ndpi a.detectionHost a.timeHost
  rw [hostId, hostSource_detected, hsource] at happ
  rw [ndpiVerdict_eq]
  exact happ

theorem scanned_sni_key (evt : FlowEvent) (a : Answers) (c : Call) :
    (c.scanned evt a).flow.sni = c.flow.sni ∧ (c.scanned evt a).flow.key = c.flow.key := by
  obtain ⟨ptr, l, -, -, heq⟩ := exists_scanned_eq evt a c
  rw [heq]
  dsimp only [mlAccumulate]
  split <;> exact ⟨rfl, rfl⟩

end Call

namespace EngineRun

variable {env : Env} {w : EngineRun}

/-- A call that leaves by the verdict of nDPI. -/
theorem Sound.entry_step_classified (hw : w.Sound) {evt : FlowEvent} (fd : ℤ) {a : Answers}
    {f : FlowEntry} (ho : w.engine.obtain evt a = some f) (hexit : f.exit evt a = .classified) :
    (w.step env (.process evt fd a)).entry evt.key =
      some ((Call.scanned evt a { engine := w.engine.bodyStart evt a, flow := f }).ndpiVerdict env
        a).flow := by
  have hentry : (w.step env (.process evt fd a)).entry evt.key =
      some (w.body env evt fd a f).flow := by
    rw [entry, hw.lookup_step_process env fd ho, if_pos rfl]
  rw [hentry, body, Call.process_eq]
  dsimp only
  rw [hexit]
  exact congrArg some (Call.verdictTail_flow env fd _)

/-- The cache, when the flow is looked at, has the name for the address. -/
theorem lookup_of_response (env : Env) (iface : Bytes) (ml dump : Bool) {p : DnsPacket}
    {host : Bytes} {rs : List Dns.Record} {r : Dns.Record} (hp : p.Names host rs r)
    {evt evt' : FlowEvent} {n : ℕ} (hevt : Produced evt n) (hwhole : evt.captured = p.bytes)
    (hport : evt.fromDnsPort = true) {a a' : Answers} {fd fd' : ℤ} {before between : List EngineOp}
    (htime : ∀ op ∈ before ++ .process evt fd a :: between ++ [.process evt' fd' a'], op.InTime)
    (hquiet : ∀ op ∈ between ++ [.process evt' fd' a'], ∀ x ∈ op.insertions,
      dnsHash x.1.ip ≠ dnsHash (addressOf r.rdata))
    {now : ℕ} (hnow : now < 2 ^ 32)
    (hlive : now < (a.timeDns (rs.filterMap (recordAnswer host)).length).toNat +
      min r.ttl.toNat 300) :
    let w := run (step env) (start iface ml dump) (before ++ .process evt fd a :: between)
    dnsCacheLookup (w.engine.observeDns evt' a').dnsCache (addressOf r.rdata) now = some host := by
  intro w
  obtain ⟨hrun, hvisit⟩ := List.forall_mem_append.mp htime
  obtain ⟨hbetween, hhook⟩ := List.forall_mem_append.mp hquiet
  have hvisited (x : DnsAnswer × ℕ) (hx : x ∈ evt'.insertions a'.timeDns) :
      dnsHash x.1.ip ≠ dnsHash (addressOf r.rdata) := hhook _ (List.mem_singleton_self _) x hx
  have hholds := holds_observeDns (holds_run env iface ml dump _ hrun) evt'
    (hvisit _ (List.mem_singleton_self _))
  rw [DnsCache.lookup_of_remembers (hholds _) hnow, List.flatMap_append, List.flatMap_cons,
    lastFor_append_of_ne hvisited, ← List.append_assoc, lastFor_append_of_ne, lastFor_append]
  · have hlast : lastFor (dnsHash (addressOf r.rdata))
        (EngineOp.insertions (.process evt fd a)) = _ :=
      hp.lastFor_insertions hevt hwhole hport a.timeDns
    have hname : cString host = host := cString_of_notMem hp.host_zero
    rw [hlast, Option.some_or, Option.bind_some, answerTo, hname,
      if_pos ⟨rfl, hp.host_ne, hlive⟩, List.take_of_length_le hp.host_length]
  · intro x hx
    obtain ⟨op, hop, hx⟩ := List.mem_flatMap.mp hx
    exact hbetween op hop x hx

/-- **From a response to a flow.** Let a front-end capture a DNS response whole, and let no later
answer, up to the call on a flow to an address of the response, be inserted in the slot of this
address. When nDPI classifies the flow within the life of the record and finds no server name in it,
the flow gets the application of what the parser keeps of the name in the question: the id of the
service tables, if they have it, and that of its label otherwise, as far as it overrides what nDPI
answered. -/
theorem dns_names_flow_run (env : Env) (iface : Bytes) (ml dump : Bool) {p : DnsPacket}
    {host : Bytes} {rs : List Dns.Record} {r : Dns.Record} (hp : p.Names host rs r)
    {evt evt' : FlowEvent} {n : ℕ} (hevt : Produced evt n) (hwhole : evt.captured = p.bytes)
    (hport : evt.fromDnsPort = true) {a a' : Answers} {fd fd' : ℤ} {before between : List EngineOp}
    (htime : ∀ op ∈ before ++ .process evt fd a :: between ++ [.process evt' fd' a'], op.InTime)
    (hquiet : ∀ op ∈ between ++ [.process evt' fd' a'], ∀ x ∈ op.insertions,
      dnsHash x.1.ip ≠ dnsHash (addressOf r.rdata))
    {now : ℕ} (hnow : a'.timeHost = now) (hnow_lt : now < 2 ^ 32)
    (hlive : now < (a.timeDns (rs.filterMap (recordAnswer host)).length).toNat +
      min r.ttl.toNat 300) {f : FlowEntry} :
    let w := run (step env) (start iface ml dump) (before ++ .process evt fd a :: between)
    w.engine.obtain evt' a' = some f → evt'.key.dstIp = addressOf r.rdata →
    f.exit evt' a' = .classified → f.sni = [] → cString a'.detectionHost = [] →
      ∃ f', (w.step env (.process evt' fd' a')).entry evt'.key = some f' ∧
        f'.appId = overridden a'.detection.best (sourceId env w.engine.dynLabels (host, true)) := by
  intro w ho hip hexit hsni hserver
  have hw : w.Sound := sound_run env iface ml dump _
  refine ⟨_, hw.entry_step_classified fd' ho hexit, ?_⟩
  let c : Call := { engine := w.engine.bodyStart evt' a', flow := f }
  have hstart : c.Coherent env := coherent_bodyStart (coherent_run env iface ml dump _) evt' a'
  have hmemos := Call.memos_scanned evt' a' c
  obtain ⟨hflowSni, hflowKey⟩ := Call.scanned_sni_key evt' a' c
  have hkey : f.key = evt'.key := by
    obtain ⟨hsound, hl⟩ := hw.entered ho
    exact hsound.valid.key_lookup hl
  have hlabels : (c.scanned evt' a').engine.dynLabels = w.engine.dynLabels := by
    refine (congrArg Prod.fst hmemos).trans ?_
    obtain ⟨cache, h⟩ := w.engine.exists_observeDns_eq evt' a'
    show (w.engine.observeDns evt' a').dynLabels = _
    rw [h]
  have hlookup : dnsCacheLookup (c.scanned evt' a').engine.dnsCache
      (c.scanned evt' a').flow.key.dstIp a'.timeHost = some host := by
    have hcache : (c.scanned evt' a').engine.dnsCache = (w.engine.observeDns evt' a').dnsCache :=
      congrArg Prod.snd hmemos
    rw [hcache, hflowKey, hkey, hip, hnow]
    exact lookup_of_response env iface ml dump hp hevt hwhole hport htime hquiet hnow_lt hlive
  have happ := Call.ndpiVerdict_app_of_lookup (hstart.of_memos_eq hmemos) (hflowSni.trans hsni)
    hserver hlookup
  rw [hlabels] at happ
  exact happ

/-! ### A sample response -/

/-- claude.ai -/
def claudeName : Dns.Name :=
  ⟨[⟨text "claude", by decide, by decide⟩, ⟨text "ai", by decide, by decide⟩], by decide +kernel⟩

/-- A response with the address 1.2.3.4 for claude.ai. -/
def claudePacket : DnsPacket := packetOf (response [claudeName] (by decide)) (by decide +kernel)

theorem names_claudePacket : claudePacket.Names (text "claude.ai") [] sampleAddress where
  response := by
    rw [Dns.Message.IsResponse]
    decide
  question := ⟨⟨claudeName, 1, 1⟩, rfl, by decide +kernel, by decide +kernel⟩
  host_ne := by decide
  address := ⟨rfl, rfl⟩
  last := ⟨[], rfl, fun _ h => absurd h List.not_mem_nil⟩

/-- A flow to 1.2.3.4 that nDPI takes for TLS, right after the response. -/
theorem dns_names_flow_run_claude : ∃ evt n,
    simpleEvent (ethHeader ++ claudePacket.bytes) (fun _ => 0) = some (evt, n) ∧
    ((run (step default) (start [] true false) [.process evt (-1) {},
      .process visitEvent (-1) { detection := { app := 91 } }]).entry visitEvent.key).map
        FlowEntry.appId = some 300 := by
  have hports : HasPorts (ethHeader ++ claudePacket.bytes) := by decide +kernel
  obtain ⟨evt, n, hevt, hkey, -, hcaptured⟩ := exists_simpleEvent (fun _ => 0) hports
  refine ⟨evt, n, hevt, ?_⟩
  have hwhole : evt.captured = claudePacket.bytes := by
    rw [hcaptured]
    decide +kernel
  have hport : evt.fromDnsPort = true := by
    rw [FlowEvent.fromDnsPort, hkey]
    decide +kernel
  let a : Answers := { detection := { app := 91 } }
  let w := run (step default) (start [] true false) ([] ++ .process evt (-1) {} :: [])
  have htime : ∀ op ∈ [] ++ EngineOp.process evt (-1) {} :: [] ++ [.process visitEvent (-1) a],
      op.InTime := by
    simp [EngineOp.InTime, a]
  have hquiet : ∀ op ∈ [] ++ [EngineOp.process visitEvent (-1) a], ∀ x ∈ op.insertions,
      dnsHash x.1.ip ≠ dnsHash (addressOf sampleAddress.rdata) := by
    have hno : visitEvent.fromDnsPort = false := by decide
    simp [EngineOp.insertions, FlowEvent.insertions, hno]
  have hnone : w.entry visitEvent.key = none := by
    have hne : evt.key ≠ visitEvent.key := by
      rw [hkey]
      decide +kernel
    have hstart : (start [] true false).entry visitEvent.key = none := rfl
    cases ho : (start [] true false).engine.obtain evt {} with
    | none => exact (lookup_step_process_of_none default (-1) ho _).trans hstart
    | some f =>
      exact ((sound_start [] true false).lookup_step_process default (-1) ho _).trans
        ((if_neg hne).trans hstart)
  obtain ⟨f, ho, hfresh⟩ : ∃ f, w.engine.obtain visitEvent a = some f ∧
      f = FlowTable.fresh visitEvent.key 0 := by
    cases ho : w.engine.obtain visitEvent a with
    | none => exact absurd (w.engine.obtain_eq_none_iff.mp ho).2 (by decide)
    | some f =>
      rcases entered_cases ho with ⟨hl, -⟩ | ⟨rfl, -, -⟩
      · exact absurd (hl.symm.trans hnone) (Option.some_ne_none f)
      · exact ⟨_, rfl, rfl⟩
  subst hfresh
  obtain ⟨f', hentry, happ⟩ := dns_names_flow_run default [] true false names_claudePacket
    (.simple _ _ evt n hevt) hwhole hport htime hquiet (show a.timeHost = ((0 : ℕ) : ℤ) from rfl)
    (by decide) (by decide) ho rfl (by decide +kernel) rfl rfl
  have hknown : dnsMatchApp (text "claude.ai") = 300 := by decide +kernel
  have hid : overridden a.detection.best
      (sourceId default w.engine.dynLabels (text "claude.ai", true)) = 300 := by
    rw [sourceId_dns, hknown]
    rfl
  exact ((congrArg (Option.map FlowEntry.appId) hentry).trans (congrArg some (happ.trans hid)))

end EngineRun

end NdpiObserve
