import NdpiObserve.Daemon.PageContent

/-!
# The series of the metrics page

The page has the values of a metric together, each value with its labels, so it has a series twice
only if a metric has two values with the same labels. The labels of an application are its name
and, for the classification counters, the method; those of a category are its name, those of an
entry of the DNS cache are its address and its hostname, and those of a dynamic label start with
the label.

## Main results

* `dotted_injective`: different addresses are printed differently.
* `nodup_series_pageContent`: the page has no series twice, when different applications, categories
  and labels have different names.
-/

namespace NdpiObserve

open Exposition

/-! ### Numbers -/

theorem decimal_injective : Function.Injective decimal := by
  -- the digits can be read back, the last one first
  refine Function.LeftInverse.injective
    (g := fun s => Nat.ofDigits 10 (s.reverse.map fun b => b.toNat - 48)) fun n => ?_
  dsimp only
  rw [decimal]
  split
  case isTrue h =>
    rw [h]
    rfl
  case isFalse =>
    have hdigit (d : ℕ) (hd : d < 10) : (UInt8.ofNat (48 + d)).toNat - 48 = d := by
      interval_cases d <;> rfl
    have hdigits : (Nat.digits 10 n).map (fun d => (UInt8.ofNat (48 + d)).toNat - 48) =
        Nat.digits 10 n := by
      rw [List.map_congr_left (fun d hd => hdigit d (Nat.digits_lt_base (by norm_num) hd)),
        List.map_id']
    rw [← List.map_reverse, List.reverse_reverse, List.map_map]
    refine (congrArg (Nat.ofDigits 10) hdigits).trans ?_
    exact Nat.ofDigits_digits 10 n

theorem dot_notMem_decimal (n : ℕ) : 46 ∉ decimal n := by
  intro h
  have hdigits := isDigits_decimal n
  rw [isDigits, Bool.and_eq_true, List.all_eq_true] at hdigits
  exact absurd (hdigits.2 46 h) (by decide)

/-- Different addresses are printed differently. -/
theorem dotted_injective : Function.Injective Engine.dotted := by
  intro ip ip' h
  have hdot : text "." = [46] := rfl
  simp only [Engine.dotted, bytes32, hdot, List.append_assoc, List.singleton_append] at h
  have hbyte {x y : UInt8} (hxy : decimal x.toNat = decimal y.toNat) : x = y :=
    UInt8.toNat_inj.mp (decimal_injective hxy)
  obtain ⟨ha, h⟩ := append_cons_inj (dot_notMem_decimal _) (dot_notMem_decimal _) h
  obtain ⟨hb, h⟩ := append_cons_inj (dot_notMem_decimal _) (dot_notMem_decimal _) h
  obtain ⟨hc, hd⟩ := append_cons_inj (dot_notMem_decimal _) (dot_notMem_decimal _) h
  refine bytes32_injective ?_
  rw [bytes32, bytes32, hbyte ha, hbyte hb, hbyte hc, hbyte hd]

/-! ### Metrics -/

namespace Metric

variable (m : Metric) (iface : Bytes)

theorem series_head : series m.headContent = [] := rfl

/-- The series of a value. -/
def seriesOf (labels : List (String × Bytes)) : Series :=
  (text m.name,
    ((text "iface", cString iface) :: labels.map fun l => (text l.1, cString l.2)).toFinset)

theorem series_content (labels : List (String × Bytes)) (value : Bytes) :
    series [m.content iface labels value] = [m.seriesOf iface labels] := rfl

/-- A label of the series of a value can be told from the series. -/
theorem label_mem_of_seriesOf_eq {labels labels' : List (String × Bytes)}
    (h : m.seriesOf iface labels = m.seriesOf iface labels') {l : String × Bytes} (hl : l ∈ labels)
    (hne : text l.1 ≠ text "iface") :
    ∃ l' ∈ labels', text l'.1 = text l.1 ∧ cString l'.2 = cString l.2 := by
  have hset := (Prod.mk.inj h).2
  have hmem : (text l.1, cString l.2) ∈
      ((text "iface", cString iface) :: labels'.map fun l => (text l.1, cString l.2)).toFinset := by
    rw [← hset, List.mem_toFinset]
    exact List.mem_cons_of_mem _ (List.mem_map.mpr ⟨l, hl, rfl⟩)
  rw [List.mem_toFinset] at hmem
  rcases List.mem_cons.mp hmem with heq | hmem
  · exact absurd (Prod.mk.inj heq).1 hne
  · obtain ⟨l', hl', heq⟩ := List.mem_map.mp hmem
    exact ⟨l', hl', (Prod.mk.inj heq).1, (Prod.mk.inj heq).2⟩

theorem oneMetric_content (labels : List (String × Bytes)) (value : Bytes) :
    OneMetric (text m.name) [m.content iface labels value] := by
  constructor
  · rw [series_content, List.forall_mem_singleton]
    rfl
  · rw [series_content]
    exact List.nodup_singleton _

theorem oneMetric_single (value : Bytes) :
    OneMetric (text m.name) (m.singleContent iface value) :=
  OneMetric.append m.series_head (m.oneMetric_content iface [] value)

theorem oneMetric_table {n : ℕ} {label : String} (hlabel : text label ≠ text "iface")
    (name : Fin n → Bytes) (c : Fin n → UInt64)
    (hname : Set.InjOn (fun i => cString (name i)) {i | c i ≠ 0}) :
    OneMetric (text m.name) (m.tableContent iface label name c) := by
  refine OneMetric.append m.series_head (OneMetric.flatMap (List.nodup_finRange n) ?_ ?_)
  · intro i _
    split
    · exact OneMetric.of_series_eq_nil rfl _
    · exact m.oneMetric_content iface _ _
  · intro i _ j _ x hi hj
    split at hi
    · cases hi
    split at hj
    · cases hj
    rename_i hci hcj
    rw [series_content, List.mem_singleton] at hi hj
    obtain ⟨l', hl', -, hvalue⟩ := m.label_mem_of_seriesOf_eq iface (hi.symm.trans hj)
      (List.mem_singleton.mpr rfl) hlabel
    rw [List.mem_singleton.mp hl'] at hvalue
    exact hname hci hcj hvalue.symm

end Metric

/-! ### The page -/

theorem oneMetric_classified (env : Env) (e : Engine)
    (hname : Set.InjOn (fun a => cString (e.appName env a))
      {a | ∃ m ∈ classifiedMethods, 0 < e.appClassified m.1 a}) :
    OneMetric (text appClassifiedMetric.name) (classifiedContent env e) := by
  have happ : text "app" ≠ text "iface" := by decide
  have hmethod : text "method" ≠ text "iface" := by decide
  have hother : text "method" ≠ text "app" := by decide
  have hmethods : ∀ m ∈ classifiedMethods, ∀ m' ∈ classifiedMethods,
      cString (text m.2) = cString (text m'.2) → m = m' := by decide
  refine OneMetric.append appClassifiedMetric.series_head
    (OneMetric.flatMap (List.nodup_finRange numApps) (fun a _ => ?_) ?_)
  · refine OneMetric.flatMap (by decide) (fun m _ => ?_) ?_
    · split
      · exact appClassifiedMetric.oneMetric_content _ _ _
      · exact OneMetric.of_series_eq_nil rfl _
    · intro m hm m' hm' x hx hx'
      split at hx
      case isFalse => cases hx
      split at hx'
      case isFalse => cases hx'
      rw [Metric.series_content, List.mem_singleton] at hx hx'
      obtain ⟨l', hl', hlabel, hvalue⟩ := appClassifiedMetric.label_mem_of_seriesOf_eq _
        (hx.symm.trans hx') (List.mem_cons_of_mem _ List.mem_cons_self) hmethod
      rcases List.mem_cons.mp hl' with rfl | hl'
      · exact absurd hlabel.symm hother
      · rw [List.mem_singleton.mp hl'] at hvalue
        exact (hmethods m' hm' m hm hvalue).symm
  · intro a _ b _ x hx hx'
    rw [series_flatMap, List.mem_flatMap] at hx hx'
    obtain ⟨m, hm, hx⟩ := hx
    obtain ⟨m', hm', hx'⟩ := hx'
    split at hx
    case isFalse => cases hx
    split at hx'
    case isFalse => cases hx'
    rename_i hpos hpos'
    rw [Metric.series_content, List.mem_singleton] at hx hx'
    obtain ⟨l', hl', hlabel, hvalue⟩ := appClassifiedMetric.label_mem_of_seriesOf_eq _
      (hx.symm.trans hx') List.mem_cons_self happ
    rcases List.mem_cons.mp hl' with rfl | hl'
    · exact hname ⟨m, hm, hpos⟩ ⟨m', hm', hpos'⟩ hvalue.symm
    · rw [List.mem_singleton.mp hl'] at hlabel
      exact absurd hlabel hother

/-- The shown entries of the DNS cache, each in the slot of its address. -/
theorem oneMetric_dnsEntries (e : Engine) (now : UInt32)
    (hslot : ∀ k, (e.dnsCache k).hostname = [] ∨ dnsHash (e.dnsCache k).ip = k) :
    OneMetric (text dnsCacheEntryMetric.name) (dnsCacheEntryMetric.headContent ++
      (e.dnsEntries now).map fun ce =>
        dnsCacheEntryMetric.content e.ifaceName
          [("ip", Engine.dotted ce.ip), ("hostname", ce.hostname)]
          (decimal (ce.expires - now).toNat)) := by
  have hip : text "ip" ≠ text "iface" := by decide
  have hother : text "hostname" ≠ text "ip" := by decide
  have hentries : e.dnsEntries now =
      ((List.finRange dnsCacheSize).filter fun k => Engine.shownDns now (e.dnsCache k)).map
        e.dnsCache := List.filter_map
  refine OneMetric.append dnsCacheEntryMetric.series_head ?_
  rw [hentries, List.map_map]
  refine OneMetric.map ((List.nodup_finRange _).filter _)
    (fun k _ => dnsCacheEntryMetric.oneMetric_content _ _ _) fun k hk k' hk' x hx hx' => ?_
  have hmine {k : Fin dnsCacheSize} (hk : k ∈ (List.finRange dnsCacheSize).filter fun k =>
      Engine.shownDns now (e.dnsCache k)) : dnsHash (e.dnsCache k).ip = k := by
    refine (hslot k).resolve_left fun hnil => ?_
    simp [Engine.shownDns, hnil] at hk
  rw [Function.comp_apply, Metric.series_content, List.mem_singleton] at hx hx'
  obtain ⟨l', hl', hlabel, hvalue⟩ := dnsCacheEntryMetric.label_mem_of_seriesOf_eq _
    (hx.symm.trans hx') List.mem_cons_self hip
  rcases List.mem_cons.mp hl' with rfl | hl'
  · rw [cString_of_notMem (zero_notMem_dotted _),
      cString_of_notMem (zero_notMem_dotted _)] at hvalue
    rw [← hmine hk, ← hmine hk', dotted_injective hvalue]
  · rw [List.mem_singleton.mp hl'] at hlabel
    exact absurd hlabel hother

theorem oneMetric_dynLabels (e : Engine) (hlabels : (e.dynLabels.map cString).Nodup) :
    OneMetric (text dynLabelMetric.name) (dynLabelContent e) := by
  have hlabel : text "label" ≠ text "iface" := by decide
  have hother : text "id" ≠ text "label" := by decide
  rw [dynLabelContent]
  split
  case isFalse => exact OneMetric.of_series_eq_nil rfl _
  case isTrue =>
    have hmap : e.dynLabels.zipIdx.map (fun x => cString x.1) = e.dynLabels.map cString := by
      have hfst : e.dynLabels.zipIdx.map Prod.fst = e.dynLabels := List.zipIdx_map_fst 0 _
      conv_rhs => rw [← hfst, List.map_map]
      rfl
    refine OneMetric.append dynLabelMetric.series_head ?_
    rw [List.mapIdx_eq_zipIdx_map]
    rw [← hmap] at hlabels
    refine OneMetric.map hlabels.of_map
      (fun x _ => dynLabelMetric.oneMetric_content _ _ _) fun x hx y hy z hz hz' => ?_
    rw [Metric.series_content, List.mem_singleton] at hz hz'
    obtain ⟨l', hl', heq, hvalue⟩ := dynLabelMetric.label_mem_of_seriesOf_eq _
      (hz.symm.trans hz') List.mem_cons_self hlabel
    rcases List.mem_cons.mp hl' with rfl | hl'
    · exact List.inj_on_of_nodup_map hlabels hx hy hvalue.symm
    · rw [List.mem_singleton.mp hl'] at heq
      exact absurd heq hother

/-- The lines of the page, metric by metric. -/
def pageBlocks (env : Env) (e : Engine) (i : MetricsIn) : List (Text × List Line) :=
  let iface := e.ifaceName
  let single (m : Metric) (value : Bytes) := (text m.name, m.singleContent iface value)
  let apps (m : Metric) (c : Fin numApps → UInt64) :=
    (text m.name, m.tableContent iface "app" (e.appName env) c)
  let categories (m : Metric) (c : Fin numCats → UInt64) :=
    (text m.name, m.tableContent iface "category" (Engine.categoryName env) c)
  let proc (m : Metric) (value : ProcStat → Bytes) :=
    (text m.name, (i.procStat.map fun p => m.singleContent iface (value p)).getD [])
  [single infoMetric (decimal 1),
    single flowsCreatedMetric (decimal e.flows.totalCreated.toNat),
    single flowsClassifiedMetric (decimal e.flowsClassified.toNat),
    single flowsGuessedMetric (decimal e.flowsGuessed.toNat),
    single flowsMlMetric (decimal e.flowsMlClassified.toNat),
    single flowsGaveUpMetric (decimal e.flowsGaveUp.toNat),
    single flowsActiveMetric (decimal e.flows.count.toNat),
    single packetsScannedMetric (decimal e.pktsScanned.toNat),
    single packetsFastpathMetric (decimal (i.fastpath ObsAppCnt.packets).toNat),
    single bytesFastpathMetric (decimal (i.fastpath ObsAppCnt.bytes).toNat),
    apps appBytesMetric (i.merged e.appBytes ObsAppCnt.bytes),
    apps appPacketsMetric (i.merged e.appPackets ObsAppCnt.packets),
    apps appFlowsMetric (i.merged e.appFlows ObsAppCnt.flows),
    (text appClassifiedMetric.name, classifiedContent env e),
    categories categoryBytesMetric e.catBytes,
    categories categoryPacketsMetric e.catPackets,
    categories categoryFlowsMetric e.catFlows,
    (text dnsCacheEntryMetric.name, dnsCacheEntryMetric.headContent ++
      (e.dnsEntries (timeStamp i.time)).map fun ce =>
        dnsCacheEntryMetric.content iface [("ip", Engine.dotted ce.ip), ("hostname", ce.hostname)]
          (decimal (ce.expires - timeStamp i.time).toNat)),
    single dnsCacheEntriesMetric (decimal (e.dnsEntries (timeStamp i.time)).length),
    single dnsCacheSizeMetric (decimal dnsCacheSize),
    (text dynLabelMetric.name, dynLabelContent e),
    proc cpuMetric fun p => fixed3 p.cpuSec,
    proc residentMetric fun p => decimalInt p.resident]

theorem pageContent_eq_blocks (env : Env) (e : Engine) (i : MetricsIn) :
    pageContent env e i = (pageBlocks env e i).flatMap Prod.snd := by
  have hproc : procContent e i =
      (i.procStat.map fun p => cpuMetric.singleContent e.ifaceName (fixed3 p.cpuSec)).getD [] ++
        (i.procStat.map fun p => residentMetric.singleContent e.ifaceName
          (decimalInt p.resident)).getD [] := by
    rw [procContent]
    cases i.procStat <;> rfl
  unfold pageContent pageBlocks
  dsimp only
  rw [hproc, dnsContent]
  simp only [List.flatMap_cons, List.flatMap_nil, List.append_assoc, List.append_nil]

theorem names_pageBlocks (env : Env) (e : Engine) (i : MetricsIn) :
    (pageBlocks env e i).map Prod.fst = pageMetrics.map fun m => text m.name := rfl

theorem nodup_pageMetrics : (pageMetrics.map fun m => text m.name).Nodup := by decide +kernel

/-- The category has a line on the page. -/
def Engine.ShowsCategory (e : Engine) (c : Fin numCats) : Prop :=
  e.catBytes c ≠ 0 ∨ e.catPackets c ≠ 0 ∨ e.catFlows c ≠ 0

/-- **The series of the page.** The page has no series twice, if no two applications with lines
on it have the same name, nor two categories with lines on it, nor two dynamic labels, and each
entry of the DNS cache is in the slot of its address. -/
theorem nodup_series_pageContent (env : Env) (e : Engine) (i : MetricsIn)
    (happ : Set.InjOn (fun a => cString (e.appName env a)) {a | i.Shows e a})
    (hcategory : Set.InjOn (fun c => cString (Engine.categoryName env c)) {c | e.ShowsCategory c})
    (hlabels : (e.dynLabels.map cString).Nodup)
    (hslot : ∀ k, (e.dnsCache k).hostname = [] ∨ dnsHash (e.dnsCache k).ip = k) :
    (series (pageContent env e i)).Nodup := by
  have hlabel : text "app" ≠ text "iface" := by decide
  have hcat : text "category" ≠ text "iface" := by decide
  have hproc (m : Metric) (value : ProcStat → Bytes) : OneMetric (text m.name)
      ((i.procStat.map fun p => m.singleContent e.ifaceName (value p)).getD []) := by
    cases i.procStat with
    | none => exact OneMetric.of_series_eq_nil rfl _
    | some p => exact m.oneMetric_single _ _
  rw [pageContent_eq_blocks]
  refine nodup_series_flatMap ?_ ?_
  · rw [names_pageBlocks]
    exact nodup_pageMetrics
  · unfold pageBlocks
    dsimp only
    simp only [List.forall_mem_cons, Metric.oneMetric_single, oneMetric_dnsEntries e _ hslot,
      oneMetric_dynLabels e hlabels, hproc, List.not_mem_nil, false_imp_iff, implies_true, true_and,
      and_true]
    refine ⟨?_, ?_, ?_, oneMetric_classified env e (happ.mono ?_), ?_, ?_, ?_⟩
    · exact Metric.oneMetric_table _ _ hlabel _ _ (happ.mono fun a ha => .inl ha)
    · exact Metric.oneMetric_table _ _ hlabel _ _ (happ.mono fun a ha => .inr (.inl ha))
    · exact Metric.oneMetric_table _ _ hlabel _ _ (happ.mono fun a ha => .inr (.inr (.inl ha)))
    · exact fun a ha => .inr (.inr (.inr ha))
    · exact Metric.oneMetric_table _ _ hcat _ _ (hcategory.mono fun c hc => .inl hc)
    · exact Metric.oneMetric_table _ _ hcat _ _ (hcategory.mono fun c hc => .inr (.inl hc))
    · exact Metric.oneMetric_table _ _ hcat _ _ (hcategory.mono fun c hc => .inr (.inr hc))

end NdpiObserve
