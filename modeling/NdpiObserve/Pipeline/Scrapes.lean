import NdpiObserve.Daemon.ControlSocket
import NdpiObserve.Pipeline.AppNames
import NdpiObserve.Pipeline.CounterReadings

/-!
# One scrape after another

A reader of the metrics page takes the samples of one series from scrape to scrape for readings of
one counter, and a fall for a restart. So a series of a counter must stay on the page once it is
there, under the same labels, and its value must not fall. The values are readings of meters; the
labels stay because an application keeps its name: a service and a protocol have theirs, and an id
of the dynamic range has a counter only when its label is there, which is never replaced.

## Main definitions

* `Pipeline.readings`: what `write_metrics` reads.
* `trafficMetrics`: the counters of the page.
* `KeepsUp`: every series goes on, with values that do not fall.

## Main results

* `Pipeline.appName_eq`: an application that is shown keeps its name.
* `Pipeline.scrapes_grow_run`: the counters of two scrapes.
-/

namespace NdpiObserve

open Exposition Machine

/-! ### Series that go on -/

/-- Every sample goes on with the same name and labels, and its value does not fall. -/
def KeepsUp (c c' : List Line) : Prop :=
  ∀ s, .sample s ∈ c → ∃ s', .sample s' ∈ c' ∧ s'.name = s.name ∧ s'.labels = s.labels ∧
    Numerals.value s.value ≤ Numerals.value s'.value

namespace KeepsUp

theorem nil (c : List Line) : KeepsUp [] c := fun _ hs => absurd hs List.not_mem_nil

theorem append {c c' d d' : List Line} (h : KeepsUp c c') (h' : KeepsUp d d') :
    KeepsUp (c ++ d) (c' ++ d') := by
  intro s hs
  rcases List.mem_append.mp hs with hs | hs
  · obtain ⟨s', hs', hsame⟩ := h s hs
    exact ⟨s', List.mem_append_left d' hs', hsame⟩
  · obtain ⟨s', hs', hsame⟩ := h' s hs
    exact ⟨s', List.mem_append_right c' hs', hsame⟩

theorem flatMap {ι : Type*} {l : List ι} {g g' : ι → List Line}
    (h : ∀ i ∈ l, KeepsUp (g i) (g' i)) : KeepsUp (l.flatMap g) (l.flatMap g') := by
  intro s hs
  obtain ⟨i, hi, hs⟩ := List.mem_flatMap.mp hs
  obtain ⟨s', hs', hsame⟩ := h i hi s hs
  exact ⟨s', List.mem_flatMap.mpr ⟨i, hi, hs'⟩, hsame⟩

end KeepsUp

namespace Metric

variable (m : Metric) (iface : Bytes)

theorem keepsUp_head : KeepsUp m.headContent m.headContent := by
  intro s hs
  simp [headContent] at hs

theorem keepsUp_content {labels labels' : List (String × Bytes)}
    (hlabels : (labels.map fun l => (text l.1, cString l.2)) =
      labels'.map fun l => (text l.1, cString l.2)) {n n' : ℕ} (hle : n ≤ n') :
    KeepsUp [m.content iface labels (decimal n)] [m.content iface labels' (decimal n')] := by
  intro s hs
  obtain rfl := Line.sample.inj (List.mem_singleton.mp hs)
  refine ⟨_, List.mem_singleton.mpr rfl, rfl, ?_, ?_⟩
  · exact congrArg (List.cons (text "iface", cString iface)) hlabels.symm
  · show Numerals.value (decimal n) ≤ Numerals.value (decimal n')
    rwa [value_decimal, value_decimal]

theorem keepsUp_single {n n' : ℕ} (hle : n ≤ n') :
    KeepsUp (m.singleContent iface (decimal n)) (m.singleContent iface (decimal n')) :=
  m.keepsUp_head.append (m.keepsUp_content iface rfl hle)

/-- A row of a table is there as long as its counter is not zero. -/
theorem keepsUp_table {k : ℕ} (label : String) {name name' : Fin k → Bytes}
    {c c' : Fin k → UInt64} (hname : ∀ i, c i ≠ 0 → cString (name i) = cString (name' i))
    (hle : ∀ i, (c i).toNat ≤ (c' i).toNat) :
    KeepsUp (m.tableContent iface label name c) (m.tableContent iface label name' c') := by
  refine m.keepsUp_head.append (KeepsUp.flatMap fun i _ => ?_)
  by_cases hzero : c i = 0
  · rw [if_pos hzero]
    exact KeepsUp.nil _
  · have hzero' : c' i ≠ 0 := by
      intro h
      have hi := hle i
      rw [h] at hi
      exact hzero (UInt64.toNat_inj.mp (Nat.le_zero.mp hi))
    rw [if_neg hzero, if_neg hzero']
    refine m.keepsUp_content iface ?_ (hle i)
    rw [List.map_singleton, List.map_singleton, hname i hzero]

end Metric

theorem keepsUp_classified (env : Env) {e e' : Engine} (hiface : e.ifaceName = e'.ifaceName)
    (hname : ∀ a, (∃ m ∈ classifiedMethods, 0 < e.appClassified m.1 a) →
      cString (e.appName env a) = cString (e'.appName env a))
    (hle : ∀ m a, (e.appClassified m a).toNat ≤ (e'.appClassified m a).toNat) :
    KeepsUp (classifiedContent env e) (classifiedContent env e') := by
  refine appClassifiedMetric.keepsUp_head.append
    (KeepsUp.flatMap fun a _ => KeepsUp.flatMap fun m hm => ?_)
  split
  case isFalse => exact KeepsUp.nil _
  case isTrue hpos =>
    have hpos' : 0 < e'.appClassified m.1 a :=
      UInt64.lt_iff_toNat_lt.mpr ((UInt64.lt_iff_toNat_lt.mp hpos).trans_le (hle m.1 a))
    rw [if_pos hpos', hiface]
    refine appClassifiedMetric.keepsUp_content _ ?_ (hle m.1 a)
    simp only [List.map_cons, List.map_nil, hname a ⟨m, hm, hpos⟩]

/-! ### The blocks of the page -/

/-- The samples of the lines are of the metric. -/
def AllNamed (name : Text) (c : List Line) : Prop := ∀ s, .sample s ∈ c → s.name = name

namespace Metric

variable (m : Metric) (iface : Bytes)

/-- Behind the comment lines of a metric stand its own samples. -/
theorem allNamed {c : List Line} (hc : ∀ x ∈ c, ∃ labels value, x = m.content iface labels value) :
    AllNamed (text m.name) (m.headContent ++ c) := by
  intro s hs
  rcases List.mem_append.mp hs with hs | hs
  · simp [headContent] at hs
  · obtain ⟨labels, value, heq⟩ := hc _ hs
    obtain rfl := Line.sample.inj heq
    rfl

theorem allNamed_single (value : Bytes) : AllNamed (text m.name) (m.singleContent iface value) :=
  m.allNamed iface (List.forall_mem_singleton.mpr ⟨[], value, rfl⟩)

theorem allNamed_table {k : ℕ} (label : String) (name : Fin k → Bytes) (c : Fin k → UInt64) :
    AllNamed (text m.name) (m.tableContent iface label name c) := by
  refine m.allNamed iface fun x hx => ?_
  obtain ⟨i, -, hx⟩ := List.mem_flatMap.mp hx
  split at hx
  · cases hx
  · exact ⟨_, _, List.mem_singleton.mp hx⟩

end Metric

theorem allNamed_classified (env : Env) (e : Engine) :
    AllNamed (text appClassifiedMetric.name) (classifiedContent env e) := by
  refine appClassifiedMetric.allNamed e.ifaceName fun x hx => ?_
  obtain ⟨a, -, hx⟩ := List.mem_flatMap.mp hx
  obtain ⟨m, -, hx⟩ := List.mem_flatMap.mp hx
  split at hx
  · exact ⟨_, _, List.mem_singleton.mp hx⟩
  · cases hx

theorem allNamed_dynLabels (e : Engine) :
    AllNamed (text dynLabelMetric.name) (dynLabelContent e) := by
  rw [dynLabelContent]
  split
  · refine dynLabelMetric.allNamed e.ifaceName fun x hx => ?_
    obtain ⟨i, hi, rfl⟩ := List.mem_mapIdx.mp hx
    exact ⟨_, _, rfl⟩
  · exact fun s hs => absurd hs List.not_mem_nil

/-- The block of a metric follows an earlier one: it is of the same metric, and if that is one of
`names`, its series go on. -/
def Follows (names : List Text) (b b' : Text × List Line) : Prop :=
  b.1 = b'.1 ∧ AllNamed b.1 b.2 ∧ (b.1 ∈ names → KeepsUp b.2 b'.2)

namespace Follows

variable {names : List Text} {name : Text} {c c' : List Line}

theorem of_keepsUp (hnamed : AllNamed name c) (hkeeps : KeepsUp c c') :
    Follows names (name, c) (name, c') :=
  ⟨rfl, hnamed, fun _ => hkeeps⟩

theorem of_notMem (hnamed : AllNamed name c) (hname : name ∉ names) :
    Follows names (name, c) (name, c') :=
  ⟨rfl, hnamed, fun h => absurd h hname⟩

end Follows

/-- **Pages by blocks.** When every block of a page follows the one of an earlier page, the series
of the metrics `names` go on. -/
theorem exists_of_follows {names : List Text} {l l' : List (Text × List Line)}
    (h : List.Forall₂ (Follows names) l l') {s : Sample}
    (hs : .sample s ∈ l.flatMap Prod.snd) (hname : s.name ∈ names) :
    ∃ s', .sample s' ∈ l'.flatMap Prod.snd ∧ s'.name = s.name ∧ s'.labels = s.labels ∧
      Numerals.value s.value ≤ Numerals.value s'.value := by
  induction h with
  | nil => cases hs
  | cons hb _ ih =>
    obtain ⟨-, hnamed, hkeeps⟩ := hb
    rw [List.flatMap_cons] at hs ⊢
    rcases List.mem_append.mp hs with hs | hs
    · obtain ⟨s', hs', hsame⟩ := hkeeps (hnamed s hs ▸ hname) s hs
      exact ⟨s', List.mem_append_left _ hs', hsame⟩
    · obtain ⟨s', hs', hsame⟩ := ih hs
      exact ⟨s', List.mem_append_right _ hs', hsame⟩

/-- The counters of the page that count traffic, which are all but the CPU time. -/
def trafficMetrics : List Metric :=
  [flowsCreatedMetric, flowsClassifiedMetric, flowsGuessedMetric, flowsMlMetric,
    flowsGaveUpMetric, packetsScannedMetric, packetsFastpathMetric, bytesFastpathMetric,
    appBytesMetric, appPacketsMetric, appFlowsMetric, appClassifiedMetric, categoryBytesMetric,
    categoryPacketsMetric, categoryFlowsMetric]

/-- The other metrics. -/
def otherMetrics : List Metric :=
  [infoMetric, flowsActiveMetric, dnsCacheEntryMetric, dnsCacheEntriesMetric, dnsCacheSizeMetric,
    dynLabelMetric, cpuMetric, residentMetric]

/-- The names of the metrics `trafficMetrics`. -/
def trafficNames : List Text := trafficMetrics.map fun m => text m.name

theorem text_injective : Function.Injective text := by
  intro s s' h
  rw [text_eq_toByteArray, text_eq_toByteArray] at h
  exact String.toByteArray_inj.mp (ByteArray.ext (Array.toList_inj.mp h))

theorem notMem_trafficNames {m : Metric} (hm : m ∈ otherMetrics) : text m.name ∉ trafficNames := by
  have hnames : ∀ m ∈ otherMetrics, m.name ∉ trafficMetrics.map Metric.name := by decide +kernel
  intro hmem
  obtain ⟨m', hm', heq⟩ := List.mem_map.mp hmem
  exact hnames m hm (List.mem_map.mpr ⟨m', hm', text_injective heq⟩)

/-- No counter of the page falls from the engine `e`, with what is read besides, to `e'`. -/
structure CountersGrow (e : Engine) (i : MetricsIn) (e' : Engine) (i' : MetricsIn) : Prop where
  flowsCreated : e.flows.totalCreated.toNat ≤ e'.flows.totalCreated.toNat
  flowsClassified : e.flowsClassified.toNat ≤ e'.flowsClassified.toNat
  flowsGuessed : e.flowsGuessed.toNat ≤ e'.flowsGuessed.toNat
  flowsMlClassified : e.flowsMlClassified.toNat ≤ e'.flowsMlClassified.toNat
  flowsGaveUp : e.flowsGaveUp.toNat ≤ e'.flowsGaveUp.toNat
  pktsScanned : e.pktsScanned.toNat ≤ e'.pktsScanned.toNat
  fastpath (q : Quantity) : (i.fastpath q.count).toNat ≤ (i'.fastpath q.count).toNat
  app (q : Quantity) (a : Fin numApps) :
    (i.merged (fun a => q.get (e.totals.1 a)) q.count a).toNat ≤
      (i'.merged (fun a => q.get (e'.totals.1 a)) q.count a).toNat
  appClassified (m : CreditMethod) (a : Fin numApps) :
    (e.appClassified m a).toNat ≤ (e'.appClassified m a).toNat
  category (q : Quantity) (c : Fin numCats) :
    (q.get (e.totals.2 c)).toNat ≤ (q.get (e'.totals.2 c)).toNat

/-- **The blocks of two pages.** When no counter falls and the names stay, every block follows the
earlier one. -/
theorem CountersGrow.follows {env : Env} {e e' : Engine} {i i' : MetricsIn}
    (h : CountersGrow e i e' i') (hiface : e.ifaceName = e'.ifaceName)
    (hname : ∀ a, i.Shows e a → cString (e.appName env a) = cString (e'.appName env a)) :
    List.Forall₂ (Follows trafficNames) (pageBlocks env e i) (pageBlocks env e' i') := by
  have hclassified : KeepsUp (classifiedContent env e) (classifiedContent env e') :=
    keepsUp_classified env hiface (fun a ha => hname a (.inr (.inr (.inr ha)))) h.appClassified
  unfold pageBlocks
  dsimp only
  rw [← hiface]
  generalize e.ifaceName = name
  have hsingle (m : Metric) {n n' : ℕ} (hle : n ≤ n') : Follows trafficNames
      (text m.name, m.singleContent name (decimal n))
      (text m.name, m.singleContent name (decimal n')) :=
    .of_keepsUp (m.allNamed_single name _) (m.keepsUp_single name hle)
  have htable {k : ℕ} (m : Metric) (label : String) {row row' : Fin k → Bytes}
      {c c' : Fin k → UInt64} (hrow : ∀ i, c i ≠ 0 → cString (row i) = cString (row' i))
      (hle : ∀ i, (c i).toNat ≤ (c' i).toNat) : Follows trafficNames
        (text m.name, m.tableContent name label row c)
        (text m.name, m.tableContent name label row' c') :=
    .of_keepsUp (m.allNamed_table name label row c) (m.keepsUp_table name label hrow hle)
  have hother (m : Metric) (hm : m ∈ otherMetrics) (value value' : Bytes) :
      Follows trafficNames (text m.name, m.singleContent name value)
        (text m.name, m.singleContent name value') :=
    .of_notMem (m.allNamed_single name _) (notMem_trafficNames hm)
  have hproc (m : Metric) (hm : m ∈ otherMetrics) (value : ProcStat → Bytes) :
      Follows trafficNames
        (text m.name, (i.procStat.map fun p => m.singleContent name (value p)).getD [])
        (text m.name, (i'.procStat.map fun p => m.singleContent name (value p)).getD []) := by
    refine .of_notMem ?_ (notMem_trafficNames hm)
    cases i.procStat with
    | none => exact fun s hs => absurd hs List.not_mem_nil
    | some p => exact m.allNamed_single name _
  refine .cons (hother _ (by simp [otherMetrics]) _ _) <| .cons (hsingle _ h.flowsCreated) <|
    .cons (hsingle _ h.flowsClassified) <| .cons (hsingle _ h.flowsGuessed) <|
    .cons (hsingle _ h.flowsMlClassified) <| .cons (hsingle _ h.flowsGaveUp) <|
    .cons (hother _ (by simp [otherMetrics]) _ _) <| .cons (hsingle _ h.pktsScanned) <|
    .cons (hsingle _ (h.fastpath .packets)) <| .cons (hsingle _ (h.fastpath .bytes)) <|
    .cons (htable _ _ (fun a ha => hname a (.inl ha)) (h.app .bytes)) <|
    .cons (htable _ _ (fun a ha => hname a (.inr (.inl ha))) (h.app .packets)) <|
    .cons (htable _ _ (fun a ha => hname a (.inr (.inr (.inl ha)))) (h.app .flows)) <|
    .cons (.of_keepsUp (allNamed_classified env e) hclassified) <|
    .cons (htable _ _ (fun _ _ => rfl) (h.category .bytes)) <|
    .cons (htable _ _ (fun _ _ => rfl) (h.category .packets)) <|
    .cons (htable _ _ (fun _ _ => rfl) (h.category .flows)) <|
    .cons (.of_notMem ?_ (notMem_trafficNames (by simp [otherMetrics]))) <|
    .cons (hother _ (by simp [otherMetrics]) _ _) <|
    .cons (hother _ (by simp [otherMetrics]) _ _) <|
    .cons (.of_notMem (allNamed_dynLabels e) (notMem_trafficNames (by simp [otherMetrics]))) <|
    .cons (hproc _ (by simp [otherMetrics]) _) <| .cons (hproc _ (by simp [otherMetrics]) _) .nil
  refine dnsCacheEntryMetric.allNamed name fun x hx => ?_
  obtain ⟨ce, -, rfl⟩ := List.mem_map.mp hx
  exact ⟨_, _, rfl⟩

/-- The answers of nDPI in a step are ids of its protocols. -/
def PipelineOp.Native (native : Set UInt16) : PipelineOp → Prop
  | .deliver a => a.Native native
  | _ => True

namespace Pipeline

/-! ### Names -/

/-- Both sides without the ring buffer. -/
def sides (w : Pipeline) : Sides := { kernel := w.kernel, daemon := w.daemon }

variable {env : Env} {native : Set UInt16} (fd : ℤ)

/-- Without the ring buffer, a step is one of both sides or nothing. -/
theorem sides_next_cases (w : Pipeline) {op : PipelineOp} (hop : op.Native native) :
    (w.next env fd op).sides = w.sides ∨
      ∃ sop : SidesOp, sop.Native native ∧ (w.next env fd op).sides = w.sides.step env sop := by
  cases op with
  | packet p => exact .inr ⟨.packet p, trivial, rfl⟩
  | deliver a =>
    rw [next, step]
    split
    · exact .inr ⟨.engine (.process _ fd a), hop, rfl⟩
    · exact .inl rfl
  | drained =>
    refine .inl ?_
    rcases step_drained_cases env fd w with heq | ⟨-, heq⟩ <;> rw [heq]
    rfl
  | age now =>
    rcases step_age_cases env fd w now with heq | ⟨-, heq⟩
    · exact .inl (by rw [heq])
    · exact .inr ⟨.engine (.age now), trivial, by rw [heq, sides, Sides.step_age, sides]⟩
  | loop => exact .inl rfl

/-- Names and ids in a step: labels are added behind the others. -/
theorem obeys_next (henv : env.Native native) {w : Pipeline}
    (h : w.sides.Obeys (nameRules env native ∅)) {op : PipelineOp} (hop : op.Native native) :
    (w.next env fd op).sides.Obeys (nameRules env native ∅) ∧
      w.daemon.engine.dynLabels <+: (w.next env fd op).daemon.engine.dynLabels := by
  have hr := closed_nameRules henv ∅
  have hlabels : (w.next env fd op).daemon = (w.next env fd op).sides.daemon := rfl
  rw [hlabels]
  rcases @sides_next_cases env native fd w op hop with heq | ⟨sop, hsop, heq⟩
  · rw [heq]
    exact ⟨h, List.prefix_rfl⟩
  · rw [heq]
    have hobeys : sop.Obeys (nameRules env native ∅) :=
      SidesOp.obeys_nameRules hsop (sop.labelsApart_empty env)
    refine ⟨h.step hr hobeys, ?_⟩
    cases sop with
    | packet p => exact List.prefix_rfl
    | engine eop => exact (h.daemon.step hr hobeys).2

theorem obeys_run (henv : env.Native native) {w : Pipeline}
    (h : w.sides.Obeys (nameRules env native ∅)) {ops : List PipelineOp}
    (hops : ∀ op ∈ ops, op.Native native) :
    (run (next env fd) w ops).sides.Obeys (nameRules env native ∅) ∧
      w.daemon.engine.dynLabels <+: (run (next env fd) w ops).daemon.engine.dynLabels := by
  refine run_induction_along (P := fun w' : Pipeline => w'.sides.Obeys (nameRules env native ∅) ∧
    w.daemon.engine.dynLabels <+: w'.daemon.engine.dynLabels) (along_iff_forall_mem.mpr hops)
    ⟨h, List.prefix_rfl⟩ fun w' op hw hop => ?_
  obtain ⟨hobeys, hpre⟩ := obeys_next fd henv hw.1 hop
  exact ⟨hobeys, hw.2.trans hpre⟩

/-- **Names stay.** An application with a counter keeps its name when labels are added, if nDPI's
ids are below those of the labels. -/
theorem appName_eq (hlow : ∀ app ∈ native, app.toNat < 400) {e e' : Engine} {a : Fin numApps}
    (hsource : HasSource native e.dynLabels.length (UInt16.ofNat a))
    (hpre : e.dynLabels <+: e'.dynLabels) (hlen : e'.dynLabels.length ≤ 64)
    (hlabels : ∀ l ∈ e'.dynLabels, 0 ∉ l) :
    cString (e.appName env a) = cString (e'.appName env a) := by
  rcases e.source_cases a with ⟨s, hs⟩ | ⟨l, hl⟩ | hndpi
  · rw [e.cString_appName_of_service env hs, e'.cString_appName_of_service env hs]
  · have hl' : e'.poolLabel a = some l := by
      obtain ⟨hle, hget⟩ := Engine.poolLabel_eq_some hl
      obtain ⟨hlt, -⟩ := List.getElem?_eq_some_iff.mp hget
      obtain ⟨new, hnew⟩ := hpre
      rw [Engine.poolLabel, if_pos hle, ← hnew, List.getElem?_append_left hlt, hget]
    rw [e.cString_appName_of_label env (hpre.length_le.trans hlen)
        (fun l hl => hlabels l (hpre.subset hl)) hl,
      e'.cString_appName_of_label env hlen hlabels hl']
  · have hlt := hlow _ (hndpi.mem_native hsource)
    rw [toNat_ofNat_app] at hlt
    have hndpi' : e'.FromNdpi a := by
      refine ⟨hndpi.1, ?_⟩
      rw [Engine.poolLabel, if_neg (by omega)]
    rw [e.cString_appName_of_ndpi env hndpi, e'.cString_appName_of_ndpi env hndpi']

/-! ### Readings -/

/-- What `write_metrics` reads, the counters of the kernel as they are. -/
def readings (w : Pipeline) (appCntFd possible now : ℤ) (proc : Option ProcStat) : MetricsIn where
  appCntFd := appCntFd
  numPossibleCpus := possible
  lookup a := some fun cpu => w.kernel.appCounters cpu a
  time := now
  procStat := proc

theorem readsFrom_readings (w : Pipeline) (appCntFd possible now : ℤ) (proc : Option ProcStat) :
    (w.readings appCntFd possible now proc).ReadsFrom w.kernel := by
  rintro a c ⟨⟩ cpu
  rfl

/-- The CPUs whose counters are read. -/
def cpusRead (appCntFd possible : ℤ) : Finset ℕ :=
  if appCntFd ≥ 0 then Finset.range (MetricsIn.ncpu { numPossibleCpus := possible }) else ∅

section Readings

variable (w : Pipeline) (appCntFd possible now : ℤ) (proc : Option ProcStat)

theorem sum_perCpu_readings (q : Quantity) (a : Fin numApps) :
    (((w.readings appCntFd possible now proc).perCpu a).map q.count).sum =
      ∑ cpu ∈ cpusRead appCntFd possible, q.count (w.kernel.appCounters cpu a) := by
  rw [MetricsIn.perCpu, cpusRead]
  show ((if appCntFd ≥ 0 then _ else _ : List ObsAppCnt).map q.count).sum = _
  split
  · rw [Finset.sum_eq_multiset_sum, Finset.range_val, Multiset.range, Multiset.map_coe,
      Multiset.sum_coe]
    exact congrArg List.sum List.map_map
  · rfl

/-- The counter of an application is that of the engine and those of the kernel. -/
theorem merged_readings (q : Quantity) (c : Fin numApps → UInt64) (a : Fin numApps) :
    (w.readings appCntFd possible now proc).merged c q.count a =
      c a + w.kernel.sumOver q (cpusRead appCntFd possible ×ˢ {a}) := by
  rw [MetricsIn.merged_eq, sum_perCpu_readings, Kernel.sumOver, Finset.sum_product]
  simp only [Finset.sum_singleton]

theorem fastpath_readings (q : Quantity) :
    (w.readings appCntFd possible now proc).fastpath q.count =
      w.kernel.sumOver q (cpusRead appCntFd possible ×ˢ Finset.univ) := by
  rw [MetricsIn.fastpath_eq, Kernel.sumOver, Finset.sum_product_right]
  exact Finset.sum_congr rfl fun a _ => w.sum_perCpu_readings appCntFd possible now proc q a

end Readings

/-! ### Two scrapes -/

section Scrapes

variable (iface : Bytes) (ml dump : Bool) {ops ops' : List PipelineOp}

/-- **The counters of two scrapes.** No counter falls. -/
theorem countersGrow_run (env : Env) (hfits : Fits (ops ++ ops'))
    (appCntFd possible now now' : ℤ) (proc proc' : Option ProcStat) :
    let w := run (next env fd) (start iface ml dump) ops
    let w' := run (next env fd) (start iface ml dump) (ops ++ ops')
    CountersGrow w.daemon.engine (w.readings appCntFd possible now proc) w'.daemon.engine
      (w'.readings appCntFd possible now' proc') := by
  intro w w'
  have hdecided {C : EngineRun → UInt64} (h : Meter.Draws (EngineRun.step env) EngineRun.Measured C
      (fun _ => 0) EngineOp.load) (hC : C (EngineRun.start iface ml dump) = 0) :
      (C w.daemon).toNat ≤ (C w'.daemon).toNat :=
    reading_le env fd iface ml dump hfits h hC rfl
  have htotals (q : Quantity) (t : TotalsSlot) (cells : Finset (ℕ × Fin numApps)) :
      (q.get (t.get w.daemon.engine.totals) + w.kernel.sumOver q cells).toNat ≤
        (q.get (t.get w'.daemon.engine.totals) + w'.kernel.sumOver q cells).toNat := by
    refine mergedReading_le env fd iface ml dump hfits (EngineRun.draws_totals env q t) ?_ ?_ q
      cells
    · cases q <;> cases t <;> rfl
    · rw [EngineRun.supply, EngineRun.entries_start]
      rfl
  refine ⟨hdecided (EngineRun.draws_totalCreated env) rfl,
    hdecided (EngineRun.draws_flowsClassified env) rfl,
    hdecided (EngineRun.draws_flowsGuessed env) rfl,
    hdecided (EngineRun.draws_flowsMlClassified env) rfl,
    hdecided (EngineRun.draws_flowsGaveUp env) rfl,
    hdecided (EngineRun.draws_pktsScanned env) rfl, fun q => ?_, fun q a => ?_, fun m a => ?_,
    fun q c => ?_⟩
  · rw [fastpath_readings, fastpath_readings]
    exact kernelReading_le env fd iface ml dump hfits q _
  · rw [merged_readings, merged_readings]
    exact htotals q (.app a) _
  · have hlt : (UInt16.ofNat a).toNat < numApps := (toNat_ofNat_app a).trans_lt a.isLt
    have hslot : (⟨(UInt16.ofNat a).toNat, hlt⟩ : Fin numApps) = a := Fin.ext (toNat_ofNat_app a)
    have hle := hdecided (EngineRun.draws_appClassified env m hlt) rfl
    rwa [hslot] at hle
  · have hle := htotals q (.category c) ∅
    simp only [Kernel.sumOver, Finset.sum_empty, add_zero] at hle
    exact hle

theorem ifaceName_run (env : Env) (ops : List PipelineOp) :
    (run (next env fd) (start iface ml dump) ops).daemon.engine.ifaceName =
      (start iface ml dump).daemon.engine.ifaceName := by
  have hiface : (run (next env fd) (start iface ml dump) ops).daemon.engine.iface =
      (start iface ml dump).daemon.engine.iface := by
    rw [daemon_run]
    exact congrArg Prod.snd (EngineRun.settings_run env _ _)
  rw [Engine.ifaceName, Engine.ifaceName, hiface]

/-- **The series of two scrapes.** In every run of both sides whose traffic fits 64 bits, each
series of a counter that a page has is on every later page with the same name and labels, and its
value has not fallen. -/
theorem scrapes_grow_run (henv : env.Native native) (hlow : ∀ app ∈ native, app.toNat < 400)
    (hnative : ∀ op ∈ ops ++ ops', op.Native native) (hfits : Fits (ops ++ ops'))
    (appCntFd possible now now' : ℤ) (proc proc' : Option ProcStat) :
    let w := run (next env fd) (start iface ml dump) ops
    let w' := run (next env fd) (start iface ml dump) (ops ++ ops')
    ∀ s, .sample s ∈ pageContent env w.daemon.engine (w.readings appCntFd possible now proc) →
      s.name ∈ trafficNames →
      ∃ s', .sample s' ∈ pageContent env w'.daemon.engine
          (w'.readings appCntFd possible now' proc') ∧
        s'.name = s.name ∧ s'.labels = s.labels ∧
          Numerals.value s.value ≤ Numerals.value s'.value := by
  intro w w' s hs hmetric
  have hstart : (start iface ml dump).sides.Obeys (nameRules env native ∅) :=
    Sides.obeys_start (closed_nameRules henv ∅) iface ml dump
  obtain ⟨hobeys, -⟩ := obeys_run fd henv hstart fun op hop =>
    hnative op (List.mem_append_left ops' hop)
  obtain ⟨hobeys', hpre⟩ := obeys_run fd henv hobeys fun op hop =>
    hnative op (List.mem_append_right ops hop)
  rw [← run_append] at hobeys' hpre
  have hiface : w.daemon.engine.ifaceName = w'.daemon.engine.ifaceName :=
    (ifaceName_run fd iface ml dump env ops).trans
      (ifaceName_run fd iface ml dump env (ops ++ ops')).symm
  have hgrow := countersGrow_run fd iface ml dump env hfits appCntFd possible now now' proc proc'
  rw [pageContent_eq_blocks] at hs ⊢
  refine exists_of_follows (hgrow.follows hiface fun a ha => ?_) hs hmetric
  exact appName_eq hlow (hobeys.hasSource (w.readsFrom_readings appCntFd possible now proc) ha) hpre
    hobeys'.daemon.engine.length_le fun l hl => (hobeys'.daemon.engine.label l hl).1

end Scrapes

/-- The ids of the numbered protocols below the labels. -/
theorem native_numberEnv_low : numberEnv.Native {app : UInt16 | app.toNat < 400} where
  unknown := (by decide : (0 : UInt16).toNat < 400)
  table app happ := by
    show app.toNat < 400
    simp only [List.mem_cons, List.not_mem_nil, or_false] at happ
    rcases happ with rfl | rfl | rfl | rfl | rfl <;> decide
  matched _ := (by decide : (0 : UInt16).toNat < 400)
  protocolId _ := .inl rfl
  injOn := Sides.native_numberEnv.injOn.mono (Set.subset_univ _)

/-- The page after eight packets of a flow, the last of them counted in the kernel, and the page
after a ninth. -/
theorem scrapes_grow_run_nine :
    let w := run (next numberEnv 3) (start (text "eth0") true false) (eightPackets { app := 7 })
    let w' := run (next numberEnv 3) (start (text "eth0") true false)
      (eightPackets { app := 7 } ++ [.packet udpPkt])
    ∀ s, .sample s ∈ pageContent numberEnv w.daemon.engine (w.readings 4 1 0 none) →
      s.name ∈ trafficNames →
      ∃ s', .sample s' ∈ pageContent numberEnv w'.daemon.engine (w'.readings 4 1 5 none) ∧
        s'.name = s.name ∧ s'.labels = s.labels ∧
          Numerals.value s.value ≤ Numerals.value s'.value := by
  refine scrapes_grow_run 3 (text "eth0") true false native_numberEnv_low (fun app happ => happ)
    (fun op hop => ?_) (by decide +kernel) 4 1 0 5 none none
  have hzero : (0 : UInt16) ∈ {app : UInt16 | app.toNat < 400} := by decide
  have hseven : (7 : UInt16) ∈ {app : UInt16 | app.toNat < 400} := by decide
  rw [eightPackets, List.append_assoc, List.mem_append, List.cons_append, List.mem_cons,
    List.mem_append, List.mem_singleton] at hop
  rcases hop with hop | rfl | hop | rfl
  · rw [List.eq_of_mem_replicate hop]
    trivial
  · exact ⟨⟨hseven, hzero⟩, hzero, hzero⟩
  · rw [List.eq_of_mem_replicate hop]
    exact ⟨⟨hzero, hzero⟩, hzero, hzero⟩
  · trivial

end Pipeline

end NdpiObserve
