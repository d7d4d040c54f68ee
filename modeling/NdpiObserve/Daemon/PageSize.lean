import NdpiObserve.Daemon.Prometheus

/-!
# The size of the metrics page

The length of the page, as an arithmetic expression in the counters, in the names that the network
and nDPI supply, and in the interface name. The response carries the page if and only if this
length is below the size of the buffer.

## Main definitions

* `digits`, `strlen`: the lengths of a number and of a string on the page.
* `rowsSize`: the length of the values of a table.
* `pageSize`: the length of the page.

## Main results

* `size_metricsPage`: the formatted lines have `pageSize` bytes.
* `zero_notMem_metricsPage`: there is no terminator in them.
* `writeMetrics_faithful_iff`: when the response is the page.
-/

namespace NdpiObserve

/-! ### Lengths of the formats -/

/-- The number of decimal digits of a number. -/
def digits (n : ℕ) : ℕ := Nat.log 10 n + 1

/-- `strlen`. -/
def strlen (s : Bytes) : ℕ := (cString s).length

theorem length_decimal (n : ℕ) : (decimal n).length = digits n := by
  rw [decimal, digits]
  split
  case isTrue h => simp [h]
  case isFalse h =>
    rw [List.length_map, List.length_reverse, Nat.length_digits 10 n (by norm_num) h]

theorem digit_ne_zero {d : ℕ} (h : d < 10) : UInt8.ofNat (48 + d) ≠ 0 := by
  interval_cases d <;> decide

theorem zero_notMem_decimal (n : ℕ) : 0 ∉ decimal n := by
  rw [decimal]
  split
  · decide
  · rw [List.mem_map]
    rintro ⟨d, hd, hzero⟩
    exact digit_ne_zero (Nat.digits_lt_base (by norm_num) (List.mem_reverse.mp hd)) hzero

theorem strlen_decimal (n : ℕ) : strlen (decimal n) = digits n := by
  rw [strlen, cString_of_notMem (zero_notMem_decimal n), length_decimal]

theorem zero_notMem_decimalInt (z : ℤ) : 0 ∉ decimalInt z := by
  rw [decimalInt]
  split <;> simp [zero_notMem_decimal]

theorem zero_notMem_fixed3 (n : ℕ) : 0 ∉ fixed3 n := by
  have hdot : 0 ∉ text "." := by decide
  have hdigit (m : ℕ) : UInt8.ofNat (48 + m % 10) ≠ 0 := digit_ne_zero (Nat.mod_lt m (by norm_num))
  simp only [fixed3, List.mem_append, zero_notMem_decimal, hdot, List.map_cons, List.map_nil,
    List.mem_cons, (hdigit _).symm, List.not_mem_nil, or_self, not_false_eq_true]

/-- The length of a number with its sign. -/
def signedDigits (z : ℤ) : ℕ := (if z < 0 then 1 else 0) + digits z.natAbs

theorem length_decimalInt (z : ℤ) : (decimalInt z).length = signedDigits z := by
  rw [decimalInt, signedDigits]
  split
  · rw [List.length_cons, length_decimal, Nat.add_comm]
  · rw [length_decimal, Nat.zero_add]

theorem length_fixed3 (n : ℕ) : (fixed3 n).length = digits (n / 1000) + 4 := by
  rw [fixed3, List.length_append, List.length_append, length_decimal]
  rfl

/-- The length of an address in dotted form. -/
def dottedSize (ip : UInt32) : ℕ := 3 + ((bytes32 ip).map fun b => digits b.toNat).sum

theorem length_dotted (ip : UInt32) : (Engine.dotted ip).length = dottedSize ip := by
  have hdot : (text ".").length = 1 := rfl
  rw [dottedSize, Engine.dotted, bytes32]
  simp only [List.length_append, length_decimal, hdot, List.map_cons, List.map_nil, List.sum_cons,
    List.sum_nil]
  omega

theorem zero_notMem_dotted (ip : UInt32) : 0 ∉ Engine.dotted ip := by
  have hdot : 0 ∉ text "." := by decide
  simp [Engine.dotted, bytes32, zero_notMem_decimal, hdot]

theorem strlen_dotted (ip : UInt32) : strlen (Engine.dotted ip) = dottedSize ip := by
  rw [strlen, cString_of_notMem (zero_notMem_dotted ip), length_dotted]

/-! ### Lengths of the lines -/

/-- The length of lines. -/
def size (l : List Bytes) : ℕ := l.flatten.length

theorem size_nil : size [] = 0 := rfl

theorem size_singleton (s : Bytes) : size [s] = s.length := by
  rw [size, List.flatten_singleton]

theorem size_append (l l' : List Bytes) : size (l ++ l') = size l + size l' := by
  rw [size, List.flatten_append, List.length_append, size, size]

theorem size_map {α : Type*} (l : List α) (s : α → Bytes) :
    size (l.map s) = (l.map fun x => (s x).length).sum := by
  rw [size, List.length_flatten, List.map_map]
  rfl

theorem size_flatMap {α : Type*} (l : List α) (s : α → List Bytes) :
    size (l.flatMap s) = (l.map fun x => size (s x)).sum := by
  induction l with
  | nil => rfl
  | cons x l ih => rw [List.flatMap_cons, size_append, ih, List.map_cons, List.sum_cons]

namespace Metric

/-- The length of the comment lines. -/
def headSize (m : Metric) : ℕ :=
  18 + 2 * m.name.utf8ByteSize + m.help.utf8ByteSize + m.kind.utf8ByteSize

def nameSize (m : Metric) : ℕ := m.name.utf8ByteSize

theorem size_head (m : Metric) : size m.head = m.headSize := by
  have hhelp : (text "# HELP ").length = 7 := rfl
  have htype : (text "# TYPE ").length = 7 := rfl
  have hblank : (text " ").length = 1 := rfl
  have hnewline : (text "\n").length = 1 := rfl
  simp only [size, head, List.flatten_cons, List.flatten_nil, List.length_append, List.length_nil,
    hhelp, htype, hblank, hnewline, length_text, headSize]
  omega

end Metric

theorem length_labelText (l : String × Bytes) :
    (labelText l).length = (text l.1).length + 4 + strlen l.2 := by
  have hopen : (text "=\"").length = 2 := rfl
  have hquote : (text "\"").length = 1 := rfl
  have hcomma : (text ",").length = 1 := rfl
  simp only [labelText, List.length_append, hopen, hquote, hcomma, strlen]
  omega

theorem length_sample (m : Metric) (iface : Bytes) (labels : List (String × Bytes))
    (value : Bytes) :
    (sample m iface labels value).length = m.nameSize + 12 + strlen iface +
      (labels.map fun l => (text l.1).length + 4 + strlen l.2).sum + value.length := by
  have hopen : (text "\x7biface=\"").length = 8 := rfl
  have hquote : (text "\"").length = 1 := rfl
  have hclose : (text "\x7d ").length = 2 := rfl
  have hnewline : (text "\n").length = 1 := rfl
  simp only [sample, List.length_append, List.length_flatMap, length_labelText, hopen, hquote,
    hclose, hnewline, length_text m.name, Metric.nameSize, strlen]
  omega

theorem Metric.size_single (m : Metric) (iface value : Bytes) :
    size (m.single iface value) =
      m.headSize + m.nameSize + 12 + strlen iface + value.length := by
  rw [single, size_append, size_head, size_singleton, length_sample, List.map_nil, List.sum_nil]
  omega

/-! ### Tables -/

/-- The length of the values of a table, for lines with `fixed` bytes besides the name and the
number. -/
def rowsSize {n : ℕ} (fixed : ℕ) (name : Fin n → Bytes) (c : Fin n → UInt64) : ℕ :=
  ∑ i, if c i = 0 then 0 else fixed + strlen (name i) + digits (c i).toNat

theorem Metric.size_table {n : ℕ} (m : Metric) (iface : Bytes) (label : String)
    (name : Fin n → Bytes) (c : Fin n → UInt64) :
    size (m.table iface label name c) = m.headSize +
      rowsSize (m.nameSize + 16 + (text label).length + strlen iface) name c := by
  have hrow (i : Fin n) :
      size (if c i = 0 then [] else [sample m iface [(label, name i)] (decimal (c i).toNat)]) =
        if c i = 0 then 0
        else m.nameSize + 16 + (text label).length + strlen iface + strlen (name i) +
          digits (c i).toNat := by
    split
    · rfl
    · rw [size_singleton, length_sample, length_decimal, List.map_singleton, List.sum_singleton]
      dsimp only
      omega
  simp only [table, size_append, size_head, size_flatMap, hrow, rowsSize, Fin.sum_univ_def]

/-- The length of the classification counters, for lines with `fixed` bytes besides the name, the
method and the number. -/
def classifiedSize (env : Env) (e : Engine) (fixed : ℕ) : ℕ :=
  ∑ i, (classifiedMethods.map fun m =>
    if 0 < e.appClassified m.1 i then
      fixed + strlen (e.appName env i) + strlen (text m.2) + digits (e.appClassified m.1 i).toNat
    else 0).sum

theorem size_classifiedLines (env : Env) (e : Engine) :
    size (classifiedLines env e) = appClassifiedMetric.headSize +
      classifiedSize env e (appClassifiedMetric.nameSize + 29 + strlen e.ifaceName) := by
  have hrow (i : Fin numApps) (m : CreditMethod × String) :
      size (if 0 < e.appClassified m.1 i then
        [sample appClassifiedMetric e.ifaceName [("app", e.appName env i), ("method", text m.2)]
          (decimal (e.appClassified m.1 i).toNat)] else []) =
      if 0 < e.appClassified m.1 i then
        appClassifiedMetric.nameSize + 29 + strlen e.ifaceName + strlen (e.appName env i) +
          strlen (text m.2) + digits (e.appClassified m.1 i).toNat
      else 0 := by
    have happ : (text "app").length = 3 := rfl
    have hmethod : (text "method").length = 6 := rfl
    split
    · rw [size_singleton, length_sample, length_decimal]
      simp only [List.map_cons, List.map_nil, List.sum_cons, List.sum_nil, happ, hmethod]
      omega
    · rfl
  simp only [classifiedLines, size_append, Metric.size_head, size_flatMap, hrow, classifiedSize,
    Fin.sum_univ_def]

/-- The length of the shown entries of the DNS cache. -/
def dnsSize (e : Engine) (now : UInt32) (fixed : ℕ) : ℕ :=
  ((e.dnsEntries now).map fun ce =>
    fixed + dottedSize ce.ip + strlen ce.hostname + digits (ce.expires - now).toNat).sum

theorem size_dnsLines (e : Engine) (now : UInt32) :
    size (dnsLines e now) =
      dnsCacheEntryMetric.headSize +
        dnsSize e now (dnsCacheEntryMetric.nameSize + 30 + strlen e.ifaceName) +
        (dnsCacheEntriesMetric.headSize + dnsCacheEntriesMetric.nameSize + 12 +
          strlen e.ifaceName + digits (e.dnsEntries now).length) +
        (dnsCacheSizeMetric.headSize + dnsCacheSizeMetric.nameSize + 12 +
          strlen e.ifaceName + digits dnsCacheSize) := by
  have hline (ce : DnsCacheEntry) :
      (sample dnsCacheEntryMetric e.ifaceName
        [("ip", Engine.dotted ce.ip), ("hostname", ce.hostname)]
        (decimal (ce.expires - now).toNat)).length =
      dnsCacheEntryMetric.nameSize + 30 + strlen e.ifaceName + dottedSize ce.ip +
        strlen ce.hostname + digits (ce.expires - now).toNat := by
    have hip : (text "ip").length = 2 := rfl
    have hhostname : (text "hostname").length = 8 := rfl
    rw [length_sample, length_decimal]
    simp only [List.map_cons, List.map_nil, List.sum_cons, List.sum_nil, hip, hhostname]
    rw [strlen_dotted]
    omega
  simp only [dnsLines, size_append, Metric.size_head, Metric.size_single, size_map, hline,
    length_decimal, dnsSize]

/-- The length of the dynamic labels, with the comment lines. -/
def dynLabelSize (e : Engine) (head fixed : ℕ) : ℕ :=
  if e.dynLabels.length > 0 then
    head + (e.dynLabels.mapIdx fun i label => fixed + strlen label + digits (400 + i)).sum
  else 0

theorem size_dynLabelLines (e : Engine) :
    size (dynLabelLines e) =
      dynLabelSize e dynLabelMetric.headSize
        (dynLabelMetric.nameSize + 28 + strlen e.ifaceName) := by
  have hline (i : ℕ) (label : Bytes) :
      (sample dynLabelMetric e.ifaceName [("label", label), ("id", decimal (400 + i))]
        (decimal 1)).length =
      dynLabelMetric.nameSize + 28 + strlen e.ifaceName + strlen label + digits (400 + i) := by
    have hlabel : (text "label").length = 5 := rfl
    have hid : (text "id").length = 2 := rfl
    have hone : (decimal 1).length = 1 := rfl
    rw [length_sample]
    simp only [List.map_cons, List.map_nil, List.sum_cons, List.sum_nil, hlabel, hid, hone]
    rw [strlen_decimal]
    omega
  have hlines : size (e.dynLabels.mapIdx fun i label =>
      sample dynLabelMetric e.ifaceName [("label", label), ("id", decimal (400 + i))]
        (decimal 1)) =
      (e.dynLabels.mapIdx fun i label =>
        dynLabelMetric.nameSize + 28 + strlen e.ifaceName + strlen label +
          digits (400 + i)).sum := by
    simp only [List.mapIdx_eq_zipIdx_map, size_map, hline]
  rw [dynLabelLines, dynLabelSize, apply_ite size, size_append, Metric.size_head, hlines, size_nil]

/-- The length of the two values about the process, for `fixed` bytes besides the numbers. -/
def procSize (i : MetricsIn) (fixed : ℕ) : ℕ :=
  match i.procStat with
  | none => 0
  | some p => fixed + digits (p.cpuSec / 1000) + signedDigits p.resident

theorem size_procLines (e : Engine) (i : MetricsIn) :
    size (procLines e i) = procSize i (cpuMetric.headSize + cpuMetric.nameSize +
      residentMetric.headSize + residentMetric.nameSize + 28 + 2 * strlen e.ifaceName) := by
  rw [procLines, procSize]
  cases i.procStat with
  | none => rfl
  | some p =>
    simp only [size_append, Metric.size_single, length_fixed3, length_decimalInt]
    omega

/-! ### The page -/

/-- The metrics of the page. -/
def pageMetrics : List Metric :=
  [infoMetric, flowsCreatedMetric, flowsClassifiedMetric, flowsGuessedMetric, flowsMlMetric,
    flowsGaveUpMetric, flowsActiveMetric, packetsScannedMetric, packetsFastpathMetric,
    bytesFastpathMetric, appBytesMetric, appPacketsMetric, appFlowsMetric, appClassifiedMetric,
    categoryBytesMetric, categoryPacketsMetric, categoryFlowsMetric, dnsCacheEntryMetric,
    dnsCacheEntriesMetric, dnsCacheSizeMetric, dynLabelMetric, cpuMetric, residentMetric]

theorem sizes_pageMetrics : pageMetrics.map (fun m => (m.headSize, m.nameSize)) =
    [(79, 17), (105, 32), (124, 35), (129, 32), (104, 27), (125, 32), (93, 25), (113, 34),
      (147, 35), (141, 33), (102, 28), (108, 30), (102, 28), (126, 33), (117, 33), (123, 35),
      (117, 33), (121, 28), (128, 30), (105, 27), (123, 27), (103, 25), (105, 29)] := by
  decide +kernel

/-- The length of the page. -/
def pageSize (env : Env) (e : Engine) (i : MetricsIn) : ℕ :=
  let f := strlen e.ifaceName
  let now := timeStamp i.time
  2816 + 12 * f +
    digits e.flows.totalCreated.toNat +
    digits e.flowsClassified.toNat +
    digits e.flowsGuessed.toNat +
    digits e.flowsMlClassified.toNat +
    digits e.flowsGaveUp.toNat +
    digits e.flows.count.toNat +
    digits e.pktsScanned.toNat +
    digits (i.fastpath ObsAppCnt.packets).toNat +
    digits (i.fastpath ObsAppCnt.bytes).toNat +
    rowsSize (47 + f) (e.appName env) (i.merged e.appBytes ObsAppCnt.bytes) +
    rowsSize (49 + f) (e.appName env) (i.merged e.appPackets ObsAppCnt.packets) +
    rowsSize (47 + f) (e.appName env) (i.merged e.appFlows ObsAppCnt.flows) +
    classifiedSize env e (62 + f) +
    rowsSize (57 + f) (Engine.categoryName env) e.catBytes +
    rowsSize (59 + f) (Engine.categoryName env) e.catPackets +
    rowsSize (57 + f) (Engine.categoryName env) e.catFlows +
    dnsSize e now (58 + f) +
    digits (e.dnsEntries now).length +
    dynLabelSize e 123 (55 + f) +
    procSize i (290 + 2 * f)

/-- The formatted lines have `pageSize` bytes. -/
theorem size_metricsPage (env : Env) (e : Engine) (i : MetricsIn) :
    size (metricsPage env e i) = pageSize env e i := by
  have happ : (text "app").length = 3 := rfl
  have hcategory : (text "category").length = 8 := rfl
  have hone : digits 1 = 1 := by simp [digits]
  have hslots : digits dnsCacheSize = 3 := by norm_num [digits, dnsCacheSize]
  have hsizes := sizes_pageMetrics
  simp only [pageMetrics, List.map_cons, List.map_nil, List.cons.injEq, Prod.mk.injEq,
    and_true] at hsizes
  unfold metricsPage
  simp only [pageSize, size_append, Metric.size_single, Metric.size_table, size_classifiedLines,
    size_dnsLines, size_dynLabelLines, size_procLines, length_decimal]
  -- a rewrite must not unfold the sums over all applications and slots
  generalize i.fastpath ObsAppCnt.packets = packets
  generalize i.fastpath ObsAppCnt.bytes = bytes
  generalize (e.dnsEntries (timeStamp i.time)).length = entries
  simp only [hsizes, happ, hcategory, hone, hslots, Nat.reduceAdd]
  omega

/-! ### No terminators -/

/-- The lines hold no terminator. -/
def Unterminated (l : List Bytes) : Prop := ∀ s ∈ l, 0 ∉ s

theorem unterminated_append {l l' : List Bytes} :
    Unterminated (l ++ l') ↔ Unterminated l ∧ Unterminated l' := by
  simp only [Unterminated, List.mem_append, or_imp, forall_and]

theorem unterminated_flatMap {α : Type*} {l : List α} {s : α → List Bytes} :
    Unterminated (l.flatMap s) ↔ ∀ x ∈ l, Unterminated (s x) := by
  simp only [Unterminated, List.mem_flatMap, forall_exists_index, and_imp]
  exact ⟨fun h x hx t ht => h t x hx ht, fun h t x hx ht => h x hx t ht⟩

/-- The texts of a metric are C strings. -/
def Metric.IsPlain (m : Metric) : Prop :=
  ∀ s ∈ [m.name, m.help, m.kind], 0 ∉ s.toByteArray.data.toList

instance (m : Metric) : Decidable m.IsPlain := inferInstanceAs (Decidable (∀ s ∈ _, _))

theorem isPlain_pageMetrics : ∀ m ∈ pageMetrics, m.IsPlain := by decide +kernel

namespace Metric.IsPlain

variable {m : Metric} (h : m.IsPlain)

include h

theorem unterminated_head : Unterminated m.head := by
  have hhelp : 0 ∉ text "# HELP " := by decide
  have htype : 0 ∉ text "# TYPE " := by decide
  have hblank : 0 ∉ text " " := by decide
  have hnewline : 0 ∉ text "\n" := by decide
  simp only [IsPlain, List.forall_mem_cons, ← text_eq_toByteArray] at h
  simp [Unterminated, head, hhelp, htype, hblank, hnewline, h]

theorem unterminated_sample (iface : Bytes) {labels : List (String × Bytes)}
    (hlabels : ∀ l ∈ labels, 0 ∉ text l.1) {value : Bytes} (hvalue : 0 ∉ value) :
    0 ∉ sample m iface labels value := by
  have hname : 0 ∉ text m.name := text_eq_toByteArray _ ▸ h m.name (by simp)
  have hopen : 0 ∉ text "\x7biface=\"" := by decide
  have hquote : 0 ∉ text "\"" := by decide
  have hclose : 0 ∉ text "\x7d " := by decide
  have hnewline : 0 ∉ text "\n" := by decide
  have hcomma : 0 ∉ text "," := by decide
  have heq : 0 ∉ text "=\"" := by decide
  simp only [sample, labelText, List.mem_append, List.mem_flatMap, not_or, not_exists, not_and,
    zero_notMem_cString, hname, hopen, hquote, hclose, hnewline, hcomma, heq, hvalue,
    not_false_eq_true, true_and, and_true]
  exact hlabels

theorem unterminated_single (iface : Bytes) {value : Bytes} (hvalue : 0 ∉ value) :
    Unterminated (m.single iface value) := by
  rw [single, unterminated_append]
  refine ⟨h.unterminated_head, ?_⟩
  simpa [Unterminated] using h.unterminated_sample iface (by simp) hvalue

theorem unterminated_table {n : ℕ} (iface : Bytes) {label : String} (hlabel : 0 ∉ text label)
    (name : Fin n → Bytes) (c : Fin n → UInt64) : Unterminated (m.table iface label name c) := by
  rw [table, unterminated_append, unterminated_flatMap]
  refine ⟨h.unterminated_head, fun i _ => ?_⟩
  have hlabels : ∀ l ∈ [(label, name i)], 0 ∉ text l.1 := by simpa using hlabel
  split
  · simp [Unterminated]
  · simpa [Unterminated] using
      h.unterminated_sample iface hlabels (zero_notMem_decimal (c i).toNat)

end Metric.IsPlain

theorem unterminated_classifiedLines (h : appClassifiedMetric.IsPlain) (env : Env) (e : Engine) :
    Unterminated (classifiedLines env e) := by
  have hlabels (app method : Bytes) : ∀ l ∈ [("app", app), ("method", method)], 0 ∉ text l.1 := by
    simp only [List.forall_mem_cons]
    decide
  rw [classifiedLines, unterminated_append, unterminated_flatMap]
  refine ⟨h.unterminated_head, fun i _ => unterminated_flatMap.mpr fun m _ => ?_⟩
  split
  · simpa [Unterminated] using
      h.unterminated_sample e.ifaceName (hlabels _ _) (zero_notMem_decimal _)
  · simp [Unterminated]

theorem unterminated_dnsLines (h : ∀ m ∈ pageMetrics, m.IsPlain) (e : Engine) (now : UInt32) :
    Unterminated (dnsLines e now) := by
  have hentry := h dnsCacheEntryMetric (by simp [pageMetrics])
  have hentries := h dnsCacheEntriesMetric (by simp [pageMetrics])
  have hsize := h dnsCacheSizeMetric (by simp [pageMetrics])
  have hlabels (ip host : Bytes) : ∀ l ∈ [("ip", ip), ("hostname", host)], 0 ∉ text l.1 := by
    simp only [List.forall_mem_cons]
    decide
  rw [dnsLines, unterminated_append, unterminated_append, unterminated_append]
  refine ⟨⟨⟨hentry.unterminated_head, fun s hs => ?_⟩,
    hentries.unterminated_single _ (zero_notMem_decimal _)⟩,
    hsize.unterminated_single _ (zero_notMem_decimal _)⟩
  obtain ⟨ce, -, rfl⟩ := List.mem_map.mp hs
  exact hentry.unterminated_sample e.ifaceName (hlabels _ _) (zero_notMem_decimal _)

theorem unterminated_dynLabelLines (h : dynLabelMetric.IsPlain) (e : Engine) :
    Unterminated (dynLabelLines e) := by
  have hlabels (label id : Bytes) : ∀ l ∈ [("label", label), ("id", id)], 0 ∉ text l.1 := by
    simp only [List.forall_mem_cons]
    decide
  rw [dynLabelLines]
  split
  · refine unterminated_append.mpr ⟨h.unterminated_head, fun s hs => ?_⟩
    obtain ⟨i, hi, rfl⟩ := List.mem_mapIdx.mp hs
    exact h.unterminated_sample e.ifaceName (hlabels _ _) (zero_notMem_decimal 1)
  · simp [Unterminated]

theorem unterminated_procLines (hcpu : cpuMetric.IsPlain) (hresident : residentMetric.IsPlain)
    (e : Engine) (i : MetricsIn) : Unterminated (procLines e i) := by
  rw [procLines]
  split
  · simp [Unterminated]
  · exact unterminated_append.mpr ⟨hcpu.unterminated_single _ (zero_notMem_fixed3 _),
      hresident.unterminated_single _ (zero_notMem_decimalInt _)⟩

theorem unterminated_metricsPage (env : Env) (e : Engine) (i : MetricsIn) :
    Unterminated (metricsPage env e i) := by
  have h := isPlain_pageMetrics
  have happ : 0 ∉ text "app" := by decide
  have hcategory : 0 ∉ text "category" := by decide
  have hclassified := unterminated_classifiedLines (h appClassifiedMetric (by simp [pageMetrics]))
  have hlabels := unterminated_dynLabelLines (h dynLabelMetric (by simp [pageMetrics]))
  have hproc := unterminated_procLines (h cpuMetric (by simp [pageMetrics]))
    (h residentMetric (by simp [pageMetrics]))
  simp only [pageMetrics, List.forall_mem_cons] at h
  unfold metricsPage
  simp only [unterminated_append, unterminated_dnsLines isPlain_pageMetrics, hclassified, hlabels,
    hproc, h, Metric.IsPlain.unterminated_single, Metric.IsPlain.unterminated_table,
    zero_notMem_decimal, not_false_eq_true, happ, hcategory, and_self]

/-! ### The response -/

theorem sizeT_of_le {n : ℕ} (h : n ≤ bodySize) : sizeT n = n := by
  rw [bodySize] at h
  rw [sizeT]
  omega

/-- **The metrics page.** In any state of the engine, no `APPEND` is given a negative room and the
response is the page with its length, if and only if the page is shorter than the buffer. -/
theorem writeMetrics_faithful_iff (env : Env) (e : Engine) (i : MetricsIn) (mem : ℕ → UInt8) :
    let r := writeMetrics env e i mem
    ((∀ room ∈ r.rooms, 0 ≤ room) ∧ r.body = (metricsPage env e i).flatten ∧
      r.contentLength = r.body.length) ↔ pageSize env e i < bodySize := by
  have hz : 0 ∉ (metricsPage env e i).flatten := by
    rw [List.mem_flatten]
    rintro ⟨s, hs, hzero⟩
    exact unterminated_metricsPage env e i s hs hzero
  rw [← size_metricsPage, size]
  unfold writeMetrics
  generalize metricsPage env e i = page at hz ⊢
  refine Iff.trans ⟨fun h => ⟨h.1, h.2.1⟩, fun h => ⟨h.1, h.2, ?_⟩⟩
    (FormatBuffer.render_faithful_iff (fun _ h => sizeT_of_le h) (by norm_num [bodySize]) hz)
  simp [FormatBuffer.Sink.contents]

end NdpiObserve
