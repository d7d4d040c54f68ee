import NdpiObserve.Daemon.EngineRuns
import NdpiObserve.Daemon.PageSize

/-!
# A metrics page that is too long

An engine that has seen a flow of each of the first `n` applications shows four lines for each of
them. The page of such an engine is longer than the buffer from about 470 applications on, with
names of any length.

## Main results

* `EngineRun.Visited.step`, `EngineRun.visited_run`: the counters after one flow of each
  application.
* `EngineRun.metrics_page_overrun`: a run whose page does not fit.
-/

namespace NdpiObserve

open Machine

/-! ### A call that nDPI decides, for a flow without a hostname -/

namespace Call

variable (env : Env) {evt : FlowEvent} {a : Answers} {c : Call}

theorem overrideByHost_of_none {m : CreditMethod} {time : ℤ} (h : c.overrideHost time = none) :
    c.overrideByHost env m [] time = c := by
  have hempty : ¬ cString [] ≠ [] := by simp [cString]
  rw [overrideByHost, if_neg hempty, h]

/-- The verdict is nDPI's when the flow has no hostname. -/
theorem ndpiVerdict_of_noHost (hhost : a.detectionHost = [])
    (hover : c.overrideHost a.timeHost = none) :
    (c.ndpiVerdict env a).flow.appId = a.detection.best ∧
      (c.ndpiVerdict env a).engine.appClassified =
        (c.engine.addClassified .ndpi a.detection.best 1).appClassified ∧
      (c.ndpiVerdict env a).engine.dnsCache = c.engine.dnsCache := by
  rw [ndpiVerdict, hhost, overrideByHost_of_none]
  · exact ⟨rfl, rfl, rfl⟩
  · exact hover

theorem process_of_noHost (fd : ℤ) (hexit : c.flow.exit evt a = .classified)
    (hhost : a.detectionHost = []) (hover : c.overrideHost a.timeHost = none) :
    (c.process env evt fd a).flow.appId = a.detection.best ∧
      (c.process env evt fd a).engine.appClassified =
        (c.engine.addClassified .ndpi a.detection.best 1).appClassified ∧
      (c.process env evt fd a).engine.dnsCache = c.engine.dnsCache ∧
      (c.process env evt fd a).engine.iface = c.engine.iface := by
  obtain ⟨ptr, l, -, -, heq⟩ := exists_scanned_eq evt a c
  have hplain := mlAccumulate_plain evt { (c.counted evt a).flow with ndpiFlow := ptr }
  have hsni := congrArg FlowEntry.sni hplain
  have hkey := congrArg FlowEntry.key hplain
  replace hsni : (c.scanned evt a).flow.sni = c.flow.sni := by
    rw [heq]
    exact hsni
  replace hkey : (c.scanned evt a).flow.key = c.flow.key := by
    rw [heq]
    exact hkey
  have hcache : (c.scanned evt a).engine.dnsCache = c.engine.dnsCache := by rw [heq]
  have hover' : (c.scanned evt a).overrideHost a.timeHost = none := by
    rw [← hover]
    simp only [overrideHost, hsni, hkey, hcache]
  obtain ⟨happ, hclassified, hdns⟩ := ndpiVerdict_of_noHost env hhost hover'
  have hiface := congrArg (fun c => c.engine.iface) (ndpiVerdict_core env a (c.scanned evt a))
  obtain ⟨rows, htail⟩ := exists_verdictTail_eq env fd ((c.scanned evt a).ndpiVerdict env a)
  rw [process_eq, hexit]
  dsimp only
  rw [htail]
  refine ⟨happ, hclassified.trans ?_, hdns.trans hcache, hiface.trans ?_⟩
  · rw [heq]
    rfl
  · rw [heq]
    rfl

end Call

/-! ### One flow of each application -/

/-- A TCP packet from port `port`, in network order, of 10.0.0.1 to port 443 of 10.0.0.2, with
four bytes of payload. -/
def tcpPacket (port : UInt16) : Bytes :=
  [0x45, 0, 0, 44, 0, 0, 0, 0, 64, 6, 0, 0, 10, 0, 0, 1, 10, 0, 0, 2] ++ bytes16 port ++
    [0x01, 0xBB, 0, 0, 0, 1, 0, 0, 0, 1, 0x50, 0x18, 4, 0, 0, 0, 0, 0, 1, 2, 3, 4]

/-- The event of `tcpPacket`, captured whole. -/
def tcpEvent (port : UInt16) : FlowEvent where
  key :=
    { srcIp := 0x0100000A, dstIp := 0x0200000A, srcPort := port, dstPort := 0xBB01
      proto := ipprotoTcp }
  pktData i := (tcpPacket port).getD i 0
  pktLen := 44
  dataLen := 44

/-- nDPI answers the application `app`. -/
def sees (app : UInt16) : Answers := { detection := { app := app } }

/-- The first packet of a flow in which nDPI sees the application `app`. -/
def visit (app : UInt16) : EngineOp := .process (tcpEvent app) 3 (sees app)

/-- One flow of each of the applications from `1` to `n`. -/
def visits (n : ℕ) : List EngineOp := (List.range n).map fun a => visit (UInt16.ofNat (a + 1))

/-- What the body of the call does with the first packet of a flow. -/
theorem process_visit (env : Env) {app : UInt16} (happ : app ≠ 0) {e : Engine}
    (hcache : e.dnsCache = fun _ => {}) :
    let d := Call.process env (tcpEvent app) 3 (sees app)
      { engine := e, flow := FlowTable.fresh (tcpEvent app).key 0 }
    d.engine.totals.1 = (e.totals.1 + fun i => if i.val = app.toNat then (44, 1, 1) else 0) ∧
      d.engine.appClassified = (e.addClassified .ndpi app 1).appClassified ∧
      d.engine.dnsCache = e.dnsCache ∧ d.engine.iface = e.iface := by
  let c : Call := { engine := e, flow := FlowTable.fresh (tcpEvent app).key 0 }
  have hknown : (sees app).detection.isKnown = true := by
    simp [sees, NdpiProtocol.isKnown, ndpiProtocolUnknown, happ]
  have hbest : (sees app).detection.best = app := if_pos happ
  have hexit : c.flow.exit (tcpEvent app) (sees app) = .classified := by
    have hlen : (tcpEvent app).dataLen = 44 := rfl
    have hdata : (tcpEvent app).actualDataLen = 44 := by
      rw [FlowEvent.actualDataLen, hlen]
      decide
    have hmalloc : (sees app).ndpiMalloc = some 0 := rfl
    rw [FlowEntry.exit, if_neg (by simp [c, FlowTable.fresh, FlowState.isTerminal]), hdata,
      if_neg (by decide), hmalloc, if_neg (by simp), if_pos hknown]
  have hover : c.overrideHost (sees app).timeHost = none := by
    have hsni : c.flow.sni = [] := rfl
    rw [Call.overrideHost, if_neg (not_not.mpr hsni)]
    simp [c, dnsCacheLookupEntry, hcache]
  obtain ⟨hid, hclassified, hdns, hiface⟩ :=
    Call.process_of_noHost env 3 hexit rfl hover
  rw [hbest] at hid hclassified
  have hmeters := Call.process_meters env (tcpEvent app) 3 (sees app) c
  have htotals := Call.process_totals env (tcpEvent app) 3 (sees app) c
  refine ⟨?_, hclassified, hdns, hiface⟩
  have hcounters : (Call.process env (tcpEvent app) 3 (sees app) c).flow.bytes = 44 ∧
      (Call.process env (tcpEvent app) 3 (sees app) c).flow.packets = 1 :=
    ⟨congrArg (fun m => m.2.2.1) hmeters, congrArg (fun m => m.2.2.2) hmeters⟩
  have htail : Exit.classified.hasTail = true := rfl
  rw [hexit, if_pos htail] at htotals
  refine (congrArg Prod.fst htotals).trans ?_
  rw [Prod.fst_add, FlowEntry.share, hid, hcounters.1, hcounters.2]

namespace EngineRun

/-- The engine counted one flow of each of the applications from `1` to `n`, and learned no
hostname. -/
structure Visited (iface : Bytes) (n : ℕ) (w : EngineRun) : Prop where
  sound : w.Sound
  iface_eq : w.engine.iface = iface
  dnsCache_eq : w.engine.dnsCache = fun _ => {}
  lookup_eq : ∀ port : UInt16, n < port.toNat →
    flowTableLookup w.engine.flows (tcpEvent port).key = none
  totals_eq : w.engine.totals.1 = fun i => if 0 < i.val ∧ i.val ≤ n then (44, 1, 1) else 0
  classified_eq : w.engine.appClassified .ndpi = fun i => if 0 < i.val ∧ i.val ≤ n then 1 else 0

theorem visited_start (iface : Bytes) (ml dump : Bool) : (start iface ml dump).Visited iface 0 where
  sound := sound_start iface ml dump
  iface_eq := rfl
  dnsCache_eq := rfl
  lookup_eq port _ := rfl
  totals_eq := by
    funext i
    rw [if_neg (by omega)]
    rfl
  classified_eq := by
    funext i
    rw [if_neg (by omega)]
    rfl

/-- The next application is visited. -/
theorem Visited.step (env : Env) {iface : Bytes} {n : ℕ} {w : EngineRun} (hw : w.Visited iface n)
    {app : UInt16} (happ : app.toNat = n + 1) :
    (w.step env (visit app)).Visited iface (n + 1) := by
  obtain ⟨hsound, hiface, hcache, hlookup, htotals, hclassified⟩ := hw
  have habsent := hlookup app (by omega)
  have hobtain : w.engine.obtain (tcpEvent app) (sees app) =
      some (FlowTable.fresh (tcpEvent app).key 0) := by
    rw [Engine.obtain, FlowTable.getOrCreate_of_none habsent]
    rfl
  have hne : app ≠ 0 := by
    rintro rfl
    cases happ
  obtain ⟨htotals', hclassified', hcache', hiface'⟩ :=
    process_visit env hne (e := w.engine.bodyStart (tcpEvent app) (sees app)) hcache
  have hsteps := step_process_of_some env 3 hobtain
  refine ⟨hsound.step env _, ?_, ?_, fun port hlt => ?_, ?_, ?_⟩
  · rw [visit, hsteps]
    exact hiface'.trans hiface
  · rw [visit, hsteps]
    exact hcache'.trans hcache
  · rw [visit, hsound.lookup_step_process env 3 hobtain, if_neg, hlookup port (by omega)]
    intro hkey
    have hport : app = port := congrArg FlowKey.srcPort hkey
    rw [hport] at happ
    omega
  · rw [visit, hsteps]
    refine htotals'.trans (funext fun i => ?_)
    change w.engine.totals.1 i + _ = _
    rw [htotals, happ]
    dsimp only
    split_ifs <;> first | omega | rfl
  · rw [visit, hsteps]
    refine (congrFun hclassified' .ndpi).trans (funext fun i => ?_)
    rw [Engine.addClassified_apply]
    change w.engine.appClassified .ndpi i + _ = _
    rw [hclassified, happ]
    simp only [true_and]
    split_ifs <;> first | omega | rfl

theorem visited_run (env : Env) (iface : Bytes) (ml dump : Bool) {n : ℕ} (hn : n < numApps) :
    (run (step env) (start iface ml dump) (visits n)).Visited iface n := by
  induction n with
  | zero => exact visited_start iface ml dump
  | succ n ih =>
    rw [visits, List.range_succ, List.map_append, List.map_singleton, run_concat]
    refine (ih (by omega)).step env (UInt16.toNat_ofNat_of_lt' ?_)
    exact lt_trans hn (by norm_num [UInt16.size])

/-! ### The page does not fit -/

/-- What `write_metrics` reads while the kernel has counted nothing. -/
def idleKernel : MetricsIn := { appCntFd := 4, lookup := fun _ => some fun _ => {} }

theorem merged_idleKernel (c : Fin numApps → UInt64) (get : ObsAppCnt → UInt64)
    (hget : get {} = 0) : idleKernel.merged c get = c := by
  funext app
  have hcpus : idleKernel.perCpu app = [{}] := rfl
  rw [MetricsIn.merged, hcpus, List.foldl_cons, List.foldl_nil, hget]
  exact UInt64.add_zero (c app)

theorem one_le_digits (n : ℕ) : 1 ≤ digits n := Nat.le_add_left 1 _

/-- A table has a line for each counter that is not zero. -/
theorem card_mul_le_rowsSize {n : ℕ} {s : Finset (Fin n)} {c : Fin n → UInt64}
    (h : ∀ i ∈ s, c i ≠ 0) (fixed : ℕ) (name : Fin n → Bytes) :
    s.card * (fixed + 1) ≤ rowsSize fixed name c := by
  have hrow : ∀ i ∈ s, fixed + 1 ≤
      if c i = 0 then 0 else fixed + strlen (name i) + digits (c i).toNat := by
    intro i hi
    have hdigits := one_le_digits (c i).toNat
    rw [if_neg (h i hi)]
    omega
  rw [rowsSize, ← smul_eq_mul]
  exact (Finset.card_nsmul_le_sum s _ _ hrow).trans
    (Finset.sum_le_sum_of_subset (Finset.subset_univ s))

theorem card_mul_le_classifiedSize {s : Finset (Fin numApps)} {e : Engine}
    (h : ∀ i ∈ s, 0 < e.appClassified .ndpi i) (env : Env) (fixed : ℕ) :
    s.card * (fixed + 5) ≤ classifiedSize env e fixed := by
  have hmethod : strlen (text "ndpi") = 4 := by decide
  have hrow : ∀ i ∈ s, fixed + 5 ≤ (classifiedMethods.map fun m =>
      if 0 < e.appClassified m.1 i then
        fixed + strlen (e.appName env i) + strlen (text m.2) + digits (e.appClassified m.1 i).toNat
      else 0).sum := by
    intro i hi
    have hdigits := one_le_digits (e.appClassified .ndpi i).toNat
    rw [classifiedMethods, List.map_cons, List.sum_cons]
    dsimp only
    rw [if_pos (h i hi), hmethod]
    omega
  rw [classifiedSize, ← smul_eq_mul]
  exact (Finset.card_nsmul_le_sum s _ _ hrow).trans
    (Finset.sum_le_sum_of_subset (Finset.subset_univ s))

/-- Each visited application has a line in the four tables. -/
theorem Visited.exists_apps {iface : Bytes} {n : ℕ} {w : EngineRun} (hw : w.Visited iface n)
    (hn : n < numApps) :
    ∃ s : Finset (Fin numApps), n ≤ s.card ∧ ∀ i ∈ s, w.engine.appBytes i ≠ 0 ∧
      w.engine.appPackets i ≠ 0 ∧ w.engine.appFlows i ≠ 0 ∧ 0 < w.engine.appClassified .ndpi i := by
  refine ⟨({i : Fin numApps | 0 < i.val ∧ i.val ≤ n} : Finset _), ?_, fun i hi => ?_⟩
  · have hval (i : ℕ) (hi : i < n) : (Fin.ofNat numApps (i + 1)).val = i + 1 :=
      Nat.mod_eq_of_lt (by omega)
    refine Finset.le_card_of_inj_on_range (fun i => Fin.ofNat numApps (i + 1))
      (fun i hi => ?_) (fun i hi j hj hij => ?_)
    · rw [Finset.mem_filter_univ, hval i hi]
      omega
    · have heq := congrArg Fin.val hij
      rw [hval i hi, hval j hj] at heq
      omega
  · rw [Finset.mem_filter_univ] at hi
    have htotal : w.engine.totals.1 i = (44, 1, 1) := by
      rw [hw.totals_eq]
      exact if_pos hi
    obtain ⟨hbytes, hpackets, hflows⟩ : w.engine.appBytes i = 44 ∧ w.engine.appPackets i = 1 ∧
        w.engine.appFlows i = 1 := by simpa [Engine.totals] using htotal
    have hcredited : w.engine.appClassified .ndpi i = 1 := by
      rw [hw.classified_eq]
      exact if_pos hi
    rw [hbytes, hpackets, hflows, hcredited]
    decide

/-- A page with one flow for each of `n` applications has `213 + 4 * strlen iface` bytes for each
of them. -/
theorem Visited.le_pageSize (env : Env) {iface : Bytes} {n : ℕ} {w : EngineRun}
    (hw : w.Visited iface n) (hn : n < numApps) (hiface : cString iface ≠ []) :
    2816 + n * (213 + 4 * strlen iface) ≤ pageSize env w.engine idleKernel := by
  obtain ⟨s, hcard, hs⟩ := hw.exists_apps hn
  have hname : w.engine.ifaceName = iface := by
    rw [Engine.ifaceName, hw.iface_eq, if_pos hiface]
  have hbytes := card_mul_le_rowsSize (fun i hi => (hs i hi).1) (47 + strlen iface)
    (w.engine.appName env)
  have hpackets := card_mul_le_rowsSize (fun i hi => (hs i hi).2.1) (49 + strlen iface)
    (w.engine.appName env)
  have hflows := card_mul_le_rowsSize (fun i hi => (hs i hi).2.2.1) (47 + strlen iface)
    (w.engine.appName env)
  have hclassified := card_mul_le_classifiedSize (fun i hi => (hs i hi).2.2.2) env
    (62 + strlen iface)
  have hlines : n * (213 + 4 * strlen iface) ≤ s.card * (213 + 4 * strlen iface) :=
    Nat.mul_le_mul_right _ hcard
  have hperApp : s.card * (213 + 4 * strlen iface) =
      s.card * (47 + strlen iface + 1) + s.card * (49 + strlen iface + 1) +
        s.card * (47 + strlen iface + 1) + s.card * (62 + strlen iface + 5) := by
    ring
  simp only [pageSize, hname, merged_idleKernel _ ObsAppCnt.bytes rfl,
    merged_idleKernel _ ObsAppCnt.packets rfl,
    merged_idleKernel _ ObsAppCnt.flows rfl]
  omega

/-- An interface name of fifteen characters, and one TCP flow of each of 480 applications. -/
theorem metrics_page_overrun :
    ¬ ∀ (env : Env) (iface : Bytes) (ml dump : Bool) (ops : List EngineOp) (i : MetricsIn)
      (mem : ℕ → UInt8), strlen iface ≤ 15 →
      let e := (run (step env) (start iface ml dump) ops).engine
      let r := writeMetrics env e i mem
      (∀ room ∈ r.rooms, 0 ≤ room) ∧ r.body = (metricsPage env e i).flatten ∧
        r.contentLength = r.body.length := by
  intro h
  have hiface : strlen (text "enp0s31f6-probe") = 15 := by decide +kernel
  have hvisited := visited_run default (text "enp0s31f6-probe") true false (n := 480)
    (by norm_num)
  have hsize := hvisited.le_pageSize default (by norm_num) (by decide +kernel)
  have hfits := (writeMetrics_faithful_iff _ _ _ _).mp
    (h default (text "enp0s31f6-probe") true false (visits 480) idleKernel (fun _ => 0) hiface.le)
  rw [hiface] at hsize
  rw [bodySize] at hfits
  omega

end EngineRun

end NdpiObserve
