import NdpiObserve.Daemon.DnsHook
import NdpiObserve.Daemon.Hostnames
import NdpiObserve.Daemon.PageSize
import NdpiObserve.Library.Exposition

/-!
# The content of the metrics page

What `write_metrics` means to say: for each line that it formats, the comment or the sample that
the line is for. The function prints names with `%s` and quotes nothing, so the response has this
content only if it fits the buffer and every printed name is UTF-8 and has no quote, no backslash
and no newline.

## Main definitions

* `pageContent`: the content of the page.
* `CleanNames`: every name on the page is UTF-8 and has nothing to quote.
* `cleanRules`: the hostnames from which such names come.

## Main results

* `write_pageContent`: the page is its content, written without quoting.
* `reads_body_iff`: when the response has the content that it should have.
* `EngineRun.metrics_wellFormed_run`: the responses in runs.
-/

namespace NdpiObserve

open Exposition Machine

/-! ### Numbers -/

theorem isDigit_digit {d : ℕ} (h : d < 10) : isDigit (UInt8.ofNat (48 + d)) = true := by
  interval_cases d <;> decide

theorem isDigits_decimal (n : ℕ) : isDigits (decimal n) = true := by
  have hne : decimal n ≠ [] := by
    rw [decimal]
    split
    case isTrue => exact List.cons_ne_nil 48 []
    case isFalse h => simp [Nat.digits_ne_nil_iff_ne_zero, h]
  rw [isDigits, Bool.and_eq_true, decide_eq_true_iff, List.all_eq_true]
  refine ⟨hne, fun b hb => ?_⟩
  obtain ⟨d, hd, rfl⟩ := mem_decimal hb
  exact isDigit_digit hd

theorem isUnsigned_of_isDigits {v : Bytes} (h : isDigits v = true) : isUnsigned v = true := by
  rw [isUnsigned, h]
  rfl

theorem isNumber_of_isUnsigned {v : Bytes} (h : isUnsigned v = true) : isNumber v = true := by
  cases v with
  | nil => exact h
  | cons b w =>
    by_cases hb : b = 45
    · -- a number without a sign does not start with one
      subst hb
      rw [isUnsigned] at h
      simp [isDigits, isDigit] at h
    · rw [isNumber]
      · exact h
      · exact fun w' heq => hb (List.cons.inj heq).1

theorem isNumber_decimal (n : ℕ) : isNumber (decimal n) = true :=
  isNumber_of_isUnsigned (isUnsigned_of_isDigits (isDigits_decimal n))

theorem isNumber_decimalInt (z : ℤ) : isNumber (decimalInt z) = true := by
  rw [decimalInt]
  split
  · exact isUnsigned_of_isDigits (isDigits_decimal _)
  · exact isNumber_decimal _

theorem isNumber_fixed3 (n : ℕ) : isNumber (fixed3 n) = true := by
  have hlt (m : ℕ) : isDigit (UInt8.ofNat (48 + m % 10)) = true :=
    isDigit_digit (Nat.mod_lt m (by norm_num))
  have hfrac : isDigits ([n / 100 % 10, n / 10 % 10, n % 10].map fun d => UInt8.ofNat (48 + d)) =
      true := by
    simp only [isDigits, List.map_cons, List.map_nil, List.all_cons, List.all_nil, hlt]
    rfl
  have hsplit : fixed3 n = decimal (n / 1000) ++
      46 :: [n / 100 % 10, n / 10 % 10, n % 10].map fun d => UInt8.ofNat (48 + d) := by
    rw [fixed3, List.append_assoc]
    rfl
  rw [hsplit]
  exact isNumber_of_isUnsigned (isUnsigned_fraction (isDigits_decimal _) hfrac)

/-! ### Content -/

namespace Metric

/-- The comment lines. -/
def headContent (m : Metric) : List Line :=
  [.comment (text "# HELP " ++ text m.name ++ text " " ++ text m.help),
    .comment (text "# TYPE " ++ text m.name ++ text " " ++ text m.kind)]

/-- The line of one value. -/
def content (m : Metric) (iface : Bytes) (labels : List (String × Bytes)) (value : Bytes) : Line :=
  .sample
    { name := text m.name
      labels := (text "iface", cString iface) :: labels.map fun l => (text l.1, cString l.2)
      value := value }

def singleContent (m : Metric) (iface : Bytes) (value : Bytes) : List Line :=
  m.headContent ++ [m.content iface [] value]

def tableContent {n : ℕ} (m : Metric) (iface : Bytes) (label : String) (name : Fin n → Bytes)
    (c : Fin n → UInt64) : List Line :=
  m.headContent ++ (List.finRange n).flatMap fun i =>
    if c i = 0 then [] else [m.content iface [(label, name i)] (decimal (c i).toNat)]

end Metric

def classifiedContent (env : Env) (e : Engine) : List Line :=
  appClassifiedMetric.headContent ++ (List.finRange numApps).flatMap fun i =>
    classifiedMethods.flatMap fun m =>
      if 0 < e.appClassified m.1 i then
        [appClassifiedMetric.content e.ifaceName
          [("app", e.appName env i), ("method", text m.2)]
          (decimal (e.appClassified m.1 i).toNat)]
      else []

def dnsContent (e : Engine) (now : UInt32) : List Line :=
  dnsCacheEntryMetric.headContent ++
    ((e.dnsEntries now).map fun ce =>
      dnsCacheEntryMetric.content e.ifaceName
        [("ip", Engine.dotted ce.ip), ("hostname", ce.hostname)]
        (decimal (ce.expires - now).toNat)) ++
    dnsCacheEntriesMetric.singleContent e.ifaceName (decimal (e.dnsEntries now).length) ++
    dnsCacheSizeMetric.singleContent e.ifaceName (decimal dnsCacheSize)

def dynLabelContent (e : Engine) : List Line :=
  if e.dynLabels.length > 0 then
    dynLabelMetric.headContent ++ e.dynLabels.mapIdx fun i label =>
      dynLabelMetric.content e.ifaceName [("label", label), ("id", decimal (400 + i))] (decimal 1)
  else []

def procContent (e : Engine) (i : MetricsIn) : List Line :=
  match i.procStat with
  | none => []
  | some p =>
    cpuMetric.singleContent e.ifaceName (fixed3 p.cpuSec) ++
      residentMetric.singleContent e.ifaceName (decimalInt p.resident)

/-- What the page should say, line by line. -/
def pageContent (env : Env) (e : Engine) (i : MetricsIn) : List Line :=
  let iface := e.ifaceName
  infoMetric.singleContent iface (decimal 1) ++
    flowsCreatedMetric.singleContent iface (decimal e.flows.totalCreated.toNat) ++
    flowsClassifiedMetric.singleContent iface (decimal e.flowsClassified.toNat) ++
    flowsGuessedMetric.singleContent iface (decimal e.flowsGuessed.toNat) ++
    flowsMlMetric.singleContent iface (decimal e.flowsMlClassified.toNat) ++
    flowsGaveUpMetric.singleContent iface (decimal e.flowsGaveUp.toNat) ++
    flowsActiveMetric.singleContent iface (decimal e.flows.count.toNat) ++
    packetsScannedMetric.singleContent iface (decimal e.pktsScanned.toNat) ++
    packetsFastpathMetric.singleContent iface (decimal (i.fastpath ObsAppCnt.packets).toNat) ++
    bytesFastpathMetric.singleContent iface (decimal (i.fastpath ObsAppCnt.bytes).toNat) ++
    appBytesMetric.tableContent iface "app" (e.appName env)
      (i.merged e.appBytes ObsAppCnt.bytes) ++
    appPacketsMetric.tableContent iface "app" (e.appName env)
      (i.merged e.appPackets ObsAppCnt.packets) ++
    appFlowsMetric.tableContent iface "app" (e.appName env)
      (i.merged e.appFlows ObsAppCnt.flows) ++
    classifiedContent env e ++
    categoryBytesMetric.tableContent iface "category" (Engine.categoryName env) e.catBytes ++
    categoryPacketsMetric.tableContent iface "category" (Engine.categoryName env) e.catPackets ++
    categoryFlowsMetric.tableContent iface "category" (Engine.categoryName env) e.catFlows ++
    dnsContent e (timeStamp i.time) ++
    dynLabelContent e ++
    procContent e i

/-! ### The page and its content -/

/-- The lines are the content, written without quoting. -/
def Says (l : List Bytes) (c : List Line) : Prop := l = c.map fun x => x.write id ++ [10]

theorem Says.append {l l' : List Bytes} {c c' : List Line} (h : Says l c) (h' : Says l' c') :
    Says (l ++ l') (c ++ c') := by
  rw [Says, List.map_append, ← h, ← h']

theorem Says.flatten {l : List Bytes} {c : List Line} (h : Says l c) : l.flatten = write id c := by
  rw [h, write, List.flatMap_def]

theorem sample_eq (m : Metric) (iface : Bytes) (labels : List (String × Bytes)) (value : Bytes) :
    sample m iface labels value = (m.content iface labels value).write id ++ [10] := by
  have hopen : text "\x7biface=\"" = 123 :: (text "iface" ++ [61, 34]) := rfl
  have hquote : text "\"" = [34] := rfl
  have hclose : text "\x7d " = [125, 32] := rfl
  have hnewline : text "\n" = [10] := rfl
  have hcomma : text "," = [44] := rfl
  have hequals : text "=\"" = [61, 34] := rfl
  have hlabel : labels.flatMap labelText = (labels.map fun l => (text l.1, cString l.2)).flatMap
      fun l => 44 :: writeLabel id l := by
    rw [List.flatMap_map]
    refine List.flatMap_congr fun l _ => ?_
    rw [labelText, hcomma, hequals, hquote, writeLabel]
    simp
  rw [sample, hopen, hquote, hclose, hnewline, hlabel, Metric.content, Line.write, writeLabels,
    writeLabel]
  simp

namespace Metric

variable (m : Metric) (iface : Bytes)

theorem says_head : Says m.head m.headContent := by
  have hnewline : text "\n" = [10] := rfl
  rw [head, hnewline]
  rfl

theorem says_single (value : Bytes) : Says (m.single iface value) (m.singleContent iface value) :=
  m.says_head.append (congrArg (fun s => [s]) (sample_eq m iface [] value))

theorem says_table {n : ℕ} (label : String) (name : Fin n → Bytes) (c : Fin n → UInt64) :
    Says (m.table iface label name c) (m.tableContent iface label name c) := by
  refine m.says_head.append ?_
  rw [Says, List.map_flatMap]
  refine List.flatMap_congr fun i _ => ?_
  split
  · rfl
  · rw [sample_eq]
    rfl

end Metric

theorem says_classified (env : Env) (e : Engine) :
    Says (classifiedLines env e) (classifiedContent env e) := by
  refine appClassifiedMetric.says_head.append ?_
  rw [Says, List.map_flatMap]
  refine List.flatMap_congr fun i _ => ?_
  rw [List.map_flatMap]
  refine List.flatMap_congr fun m _ => ?_
  split
  · rw [sample_eq]
    rfl
  · rfl

theorem says_dns (e : Engine) (now : UInt32) : Says (dnsLines e now) (dnsContent e now) := by
  refine ((dnsCacheEntryMetric.says_head.append ?_).append
    (dnsCacheEntriesMetric.says_single _ _)).append (dnsCacheSizeMetric.says_single _ _)
  rw [Says, List.map_map]
  exact List.map_congr_left fun ce _ => sample_eq _ _ _ _

theorem says_dynLabels (e : Engine) : Says (dynLabelLines e) (dynLabelContent e) := by
  rw [dynLabelLines, dynLabelContent]
  split
  · refine dynLabelMetric.says_head.append ?_
    rw [Says, List.mapIdx_eq_zipIdx_map, List.mapIdx_eq_zipIdx_map, List.map_map]
    exact List.map_congr_left fun x _ => sample_eq _ _ _ _
  · rfl

theorem says_proc (e : Engine) (i : MetricsIn) : Says (procLines e i) (procContent e i) := by
  rw [procLines, procContent]
  cases i.procStat with
  | none => rfl
  | some p => exact (cpuMetric.says_single _ _).append (residentMetric.says_single _ _)

/-- **The page.** It is its content, written without quoting. -/
theorem write_pageContent (env : Env) (e : Engine) (i : MetricsIn) :
    (metricsPage env e i).flatten = write id (pageContent env e i) := by
  refine Says.flatten ?_
  unfold metricsPage pageContent
  have hsingle (m : Metric) (value : Bytes) :
      Says (m.single e.ifaceName value) (m.singleContent e.ifaceName value) :=
    m.says_single e.ifaceName value
  have htable {n : ℕ} (m : Metric) (label : String) (name : Fin n → Bytes) (c : Fin n → UInt64) :
      Says (m.table e.ifaceName label name c) (m.tableContent e.ifaceName label name c) :=
    m.says_table e.ifaceName label name c
  refine .append (.append (.append ?_ (says_dns e _)) (says_dynLabels e)) (says_proc e i)
  refine .append (.append (.append ?_ (htable _ _ _ _)) (htable _ _ _ _)) (htable _ _ _ _)
  refine .append (.append (.append (.append ?_ (htable _ _ _ _)) (htable _ _ _ _))
    (htable _ _ _ _)) (says_classified env e)
  refine .append (.append (.append (.append (.append ?_ (hsingle _ _)) (hsingle _ _))
    (hsingle _ _)) (hsingle _ _)) (hsingle _ _)
  exact .append (.append (.append (.append (hsingle _ _) (hsingle _ _)) (hsingle _ _))
    (hsingle _ _)) (hsingle _ _)

/-! ### The grammar -/

/-- The name of the metric is one of the format, and its texts are one line. -/
def Metric.Valid (m : Metric) : Prop :=
  isName true (text m.name) = true ∧ 10 ∉ text m.name ++ text m.help ++ text m.kind

instance (m : Metric) : Decidable m.Valid := inferInstanceAs (Decidable (_ ∧ _))

/-- The lines are lines of the format, apart from the values of labels. -/
def AllFormed (c : List Line) : Prop := ∀ x ∈ c, x.Formed

theorem allFormed_append {c c' : List Line} : AllFormed (c ++ c') ↔ AllFormed c ∧ AllFormed c' :=
  List.forall_mem_append

theorem utf8_text (s : String) : Utf8 (text s) := .intro s.toList rfl

theorem valid_pageMetrics : ∀ m ∈ pageMetrics, m.Valid := by
  have hall : (pageMetrics.all fun m => isName true (text m.name) &&
      (text m.name ++ text m.help ++ text m.kind).all (· != 10)) = true := by decide +kernel
  intro m hm
  have hm := List.all_eq_true.mp hall m hm
  rw [Bool.and_eq_true, List.all_eq_true] at hm
  exact ⟨hm.1, fun hnewline => by simpa using hm.2 10 hnewline⟩

namespace Metric.Valid

variable {m : Metric} (h : m.Valid) (iface : Bytes)

include h

theorem head : AllFormed m.headContent := by
  have hhelp : 10 ∉ text "# HELP " := by decide
  have htype : 10 ∉ text "# TYPE " := by decide
  have hblank : 10 ∉ text " " := by decide
  have hnewline := h.2
  simp only [List.mem_append, not_or] at hnewline
  have hutf8 (a b c d : String) : Utf8 (text a ++ text b ++ text c ++ text d) :=
    (((utf8_text a).append (utf8_text b)).append (utf8_text c)).append (utf8_text d)
  simp only [AllFormed, headContent, List.forall_mem_cons, List.not_mem_nil, false_imp_iff,
    implies_true, and_true]
  refine ⟨⟨rfl, ?_, hutf8 ..⟩, rfl, ?_, hutf8 ..⟩
  · simp [hhelp, hblank, hnewline]
  · simp [htype, hblank, hnewline]

theorem content {labels : List (String × Bytes)}
    (hlabels : ∀ l ∈ labels, isName false (text l.1) = true) {value : Bytes}
    (hvalue : isNumber value = true) : (m.content iface labels value).Formed := by
  refine ⟨h.1, ?_, hvalue⟩
  have hiface : isName false (text "iface") = true := by decide
  rw [List.forall_mem_cons, List.forall_mem_map]
  exact ⟨hiface, hlabels⟩

theorem single {value : Bytes} (hvalue : isNumber value = true) :
    AllFormed (m.singleContent iface value) := by
  refine allFormed_append.mpr ⟨h.head, ?_⟩
  rw [AllFormed, List.forall_mem_singleton]
  exact h.content iface (List.forall_mem_nil _) hvalue

theorem table {n : ℕ} {label : String} (hlabel : isName false (text label) = true)
    (name : Fin n → Bytes) (c : Fin n → UInt64) :
    AllFormed (m.tableContent iface label name c) := by
  refine allFormed_append.mpr ⟨h.head, fun x hx => ?_⟩
  obtain ⟨i, -, hx⟩ := List.mem_flatMap.mp hx
  split at hx
  · cases hx
  · rw [List.mem_singleton.mp hx]
    exact h.content iface (by simpa using hlabel) (isNumber_decimal _)

end Metric.Valid

theorem formed_classified (env : Env) (e : Engine) : AllFormed (classifiedContent env e) := by
  have h : appClassifiedMetric.Valid := valid_pageMetrics _ (by simp [pageMetrics])
  have happ : isName false (text "app") = true := by decide
  have hmethod : isName false (text "method") = true := by decide
  refine allFormed_append.mpr ⟨h.head, fun x hx => ?_⟩
  obtain ⟨i, -, hx⟩ := List.mem_flatMap.mp hx
  obtain ⟨m, -, hx⟩ := List.mem_flatMap.mp hx
  split at hx
  · rw [List.mem_singleton.mp hx]
    exact h.content _ (by simp [happ, hmethod]) (isNumber_decimal _)
  · cases hx

theorem formed_dns (e : Engine) (now : UInt32) : AllFormed (dnsContent e now) := by
  have h : dnsCacheEntryMetric.Valid := valid_pageMetrics _ (by simp [pageMetrics])
  have hentries : dnsCacheEntriesMetric.Valid := valid_pageMetrics _ (by simp [pageMetrics])
  have hsize : dnsCacheSizeMetric.Valid := valid_pageMetrics _ (by simp [pageMetrics])
  have hip : isName false (text "ip") = true := by decide
  have hhost : isName false (text "hostname") = true := by decide
  refine allFormed_append.mpr ⟨allFormed_append.mpr ⟨allFormed_append.mpr ⟨h.head, fun x hx => ?_⟩,
    hentries.single _ (isNumber_decimal _)⟩, hsize.single _ (isNumber_decimal _)⟩
  obtain ⟨ce, -, rfl⟩ := List.mem_map.mp hx
  exact h.content _ (by simp [hip, hhost]) (isNumber_decimal _)

theorem formed_dynLabels (e : Engine) : AllFormed (dynLabelContent e) := by
  have h : dynLabelMetric.Valid := valid_pageMetrics _ (by simp [pageMetrics])
  have hlabel : isName false (text "label") = true := by decide
  have hid : isName false (text "id") = true := by decide
  rw [dynLabelContent]
  split
  · refine allFormed_append.mpr ⟨h.head, fun x hx => ?_⟩
    obtain ⟨i, hi, rfl⟩ := List.mem_mapIdx.mp hx
    exact h.content _ (by simp [hlabel, hid]) (isNumber_decimal 1)
  · exact List.forall_mem_nil _

theorem formed_proc (e : Engine) (i : MetricsIn) : AllFormed (procContent e i) := by
  have hcpu : cpuMetric.Valid := valid_pageMetrics _ (by simp [pageMetrics])
  have hresident : residentMetric.Valid := valid_pageMetrics _ (by simp [pageMetrics])
  rw [procContent]
  cases i.procStat with
  | none => exact List.forall_mem_nil _
  | some p =>
    exact allFormed_append.mpr
      ⟨hcpu.single _ (isNumber_fixed3 _), hresident.single _ (isNumber_decimalInt _)⟩

theorem formed_pageContent (env : Env) (e : Engine) (i : MetricsIn) :
    AllFormed (pageContent env e i) := by
  have h := valid_pageMetrics
  have happ : isName false (text "app") = true := by decide
  have hcategory : isName false (text "category") = true := by decide
  have hclassified := formed_classified env e
  have hdns := formed_dns e (timeStamp i.time)
  have hlabels := formed_dynLabels e
  have hproc := formed_proc e i
  simp only [pageMetrics, List.forall_mem_cons] at h
  unfold pageContent
  simp only [allFormed_append, hclassified, hdns, hlabels, hproc, h, Metric.Valid.single,
    Metric.Valid.table, isNumber_decimal, happ, hcategory, and_self]

/-! ### Names on the page -/

/-- The application has a line on the page. -/
def MetricsIn.Shows (i : MetricsIn) (e : Engine) (a : Fin numApps) : Prop :=
  i.merged e.appBytes ObsAppCnt.bytes a ≠ 0 ∨ i.merged e.appPackets ObsAppCnt.packets a ≠ 0 ∨
    i.merged e.appFlows ObsAppCnt.flows a ≠ 0 ∨
      ∃ m ∈ classifiedMethods, 0 < e.appClassified m.1 a

/-- Every name on the page is UTF-8 and has no quote, no backslash and no newline. -/
structure CleanNames (env : Env) (e : Engine) (i : MetricsIn) : Prop where
  iface : Clean (cString e.ifaceName)
  app : ∀ a, i.Shows e a → Clean (cString (e.appName env a))
  category : ∀ c, e.catBytes c ≠ 0 ∨ e.catPackets c ≠ 0 ∨ e.catFlows c ≠ 0 →
    Clean (cString (Engine.categoryName env c))
  hostname : ∀ ce ∈ e.dnsEntries (timeStamp i.time), Clean (cString ce.hostname)
  label : ∀ l ∈ e.dynLabels, Clean (cString l)

/-- The values of the labels are UTF-8 and have nothing to quote. -/
def AllClean (c : List Line) : Prop := ∀ x ∈ c, x.Values Clean

theorem allClean_append {c c' : List Line} : AllClean (c ++ c') ↔ AllClean c ∧ AllClean c' :=
  List.forall_mem_append

namespace Metric

variable (m : Metric) (iface : Bytes)

theorem clean_head : AllClean m.headContent := by
  simp [AllClean, headContent, Line.Values]

theorem clean_content {labels : List (String × Bytes)} {value : Bytes} :
    (m.content iface labels value).Values Clean ↔
      Clean (cString iface) ∧ ∀ l ∈ labels, Clean (cString l.2) := by
  rw [content, Line.Values, List.forall_mem_cons, List.forall_mem_map]

theorem clean_single {value : Bytes} :
    AllClean (m.singleContent iface value) ↔ Clean (cString iface) := by
  rw [singleContent, allClean_append, and_iff_right m.clean_head, AllClean,
    List.forall_mem_singleton, clean_content, and_iff_left (List.forall_mem_nil _)]

theorem clean_table {n : ℕ} {label : String} {name : Fin n → Bytes} {c : Fin n → UInt64} :
    AllClean (m.tableContent iface label name c) ↔
      ∀ i, c i ≠ 0 → Clean (cString iface) ∧ Clean (cString (name i)) := by
  rw [tableContent, allClean_append, and_iff_right m.clean_head, AllClean, List.forall_mem_flatMap]
  refine ⟨fun h i hi => ?_, fun h i _ => ?_⟩
  · have hrow := h i (List.mem_finRange i)
    rw [if_neg hi, List.forall_mem_singleton, clean_content, List.forall_mem_singleton] at hrow
    exact hrow
  · split
    · exact List.forall_mem_nil _
    · rename_i hi
      rw [List.forall_mem_singleton, clean_content, List.forall_mem_singleton]
      exact h i hi

end Metric

theorem clean_of_isDigits {v : Bytes} (h : isDigits v = true) : Clean v := by
  have hall : ∀ b : UInt8, isDigit b = true → b < 128 ∧ special b = false := by decide +kernel
  exact clean_of_ascii fun b hb => hall b (mem_isDigits h hb)

theorem clean_decimal (n : ℕ) : Clean (cString (decimal n)) := by
  rw [cString_of_notMem (zero_notMem_decimal n)]
  exact clean_of_isDigits (isDigits_decimal n)

theorem clean_dotted (ip : UInt32) : Clean (cString (Engine.dotted ip)) := by
  have hdot : Clean (text ".") := by decide +kernel
  have hnumber (n : ℕ) : Clean (decimal n) := clean_of_isDigits (isDigits_decimal n)
  have hpart (n : ℕ) {v : Bytes} (hv : Clean v) : Clean (v ++ text "." ++ decimal n) :=
    (hv.append hdot).append (hnumber n)
  rw [cString_of_notMem (zero_notMem_dotted ip)]
  exact hpart _ (hpart _ (hpart _ (hnumber _)))

theorem clean_classified (env : Env) (e : Engine) : AllClean (classifiedContent env e) ↔
    ∀ a, (∃ m ∈ classifiedMethods, 0 < e.appClassified m.1 a) →
      Clean (cString e.ifaceName) ∧ Clean (cString (e.appName env a)) := by
  have hmethods : ∀ m ∈ classifiedMethods, Clean (cString (text m.2)) := by decide +kernel
  rw [classifiedContent, allClean_append, and_iff_right appClassifiedMetric.clean_head, AllClean,
    List.forall_mem_flatMap]
  refine ⟨fun h a ⟨m, hm, hpos⟩ => ?_, fun h a _ => ?_⟩
  · have hrow := List.forall_mem_flatMap.mp (h a (List.mem_finRange a)) m hm
    rw [if_pos hpos, List.forall_mem_singleton, Metric.clean_content, List.forall_mem_cons] at hrow
    exact ⟨hrow.1, hrow.2.1⟩
  · rw [List.forall_mem_flatMap]
    intro m hm
    split
    case isTrue hpos =>
      obtain ⟨hiface, hname⟩ := h a ⟨m, hm, hpos⟩
      rw [List.forall_mem_singleton, Metric.clean_content, List.forall_mem_cons,
        List.forall_mem_singleton]
      exact ⟨hiface, hname, hmethods m hm⟩
    case isFalse => exact List.forall_mem_nil _

theorem clean_dns (e : Engine) (now : UInt32) : AllClean (dnsContent e now) ↔
    Clean (cString e.ifaceName) ∧ ∀ ce ∈ e.dnsEntries now, Clean (cString ce.hostname) := by
  rw [dnsContent, allClean_append, allClean_append, allClean_append,
    and_iff_right dnsCacheEntryMetric.clean_head, Metric.clean_single, Metric.clean_single,
    AllClean, List.forall_mem_map]
  refine ⟨fun ⟨⟨h, hiface⟩, _⟩ => ⟨hiface, fun ce hce => ?_⟩,
    fun ⟨hiface, h⟩ => ⟨⟨fun ce hce => ?_, hiface⟩, hiface⟩⟩
  · have hrow := (Metric.clean_content _ _).mp (h ce hce)
    rw [List.forall_mem_cons, List.forall_mem_singleton] at hrow
    exact hrow.2.2
  · rw [Metric.clean_content, List.forall_mem_cons, List.forall_mem_singleton]
    exact ⟨hiface, clean_dotted ce.ip, h ce hce⟩

theorem clean_dynLabels (e : Engine) : AllClean (dynLabelContent e) ↔
    ∀ l ∈ e.dynLabels, Clean (cString e.ifaceName) ∧ Clean (cString l) := by
  rw [dynLabelContent]
  split
  case isFalse hnil =>
    have hlabels : e.dynLabels = [] := by simpa using hnil
    rw [hlabels]
    exact iff_of_true (List.forall_mem_nil _) (List.forall_mem_nil _)
  case isTrue =>
    rw [allClean_append, and_iff_right dynLabelMetric.clean_head]
    refine ⟨fun h l hl => ?_, fun h x hx => ?_⟩
    · obtain ⟨i, hi, rfl⟩ := List.getElem_of_mem hl
      have hrow := (Metric.clean_content _ _).mp (h _ (List.mem_mapIdx.mpr ⟨i, hi, rfl⟩))
      rw [List.forall_mem_cons] at hrow
      exact ⟨hrow.1, hrow.2.1⟩
    · obtain ⟨i, hi, rfl⟩ := List.mem_mapIdx.mp hx
      obtain ⟨hiface, hlabel⟩ := h _ (List.getElem_mem hi)
      rw [Metric.clean_content, List.forall_mem_cons, List.forall_mem_singleton]
      exact ⟨hiface, hlabel, clean_decimal _⟩

theorem clean_proc {e : Engine} (i : MetricsIn) (h : Clean (cString e.ifaceName)) :
    AllClean (procContent e i) := by
  rw [procContent]
  cases i.procStat with
  | none => exact List.forall_mem_nil _
  | some p =>
    exact allClean_append.mpr
      ⟨(cpuMetric.clean_single _).mpr h, (residentMetric.clean_single _).mpr h⟩

/-- The values of the labels are clean exactly when the names are. -/
theorem allClean_pageContent (env : Env) (e : Engine) (i : MetricsIn) :
    AllClean (pageContent env e i) ↔ CleanNames env e i := by
  unfold pageContent
  simp only [allClean_append, Metric.clean_single, Metric.clean_table, clean_classified, clean_dns,
    clean_dynLabels]
  constructor
  · rintro ⟨⟨⟨⟨⟨⟨⟨⟨⟨⟨⟨-, hiface⟩, hbytes⟩, hpackets⟩, hflows⟩, hclassified⟩, hcatBytes⟩,
      hcatPackets⟩, hcatFlows⟩, ⟨-, hhost⟩⟩, hlabel⟩, -⟩
    refine ⟨hiface, ?_, ?_, hhost, fun l hl => (hlabel l hl).2⟩
    · rintro a (ha | ha | ha | ha)
      · exact (hbytes a ha).2
      · exact (hpackets a ha).2
      · exact (hflows a ha).2
      · exact (hclassified a ha).2
    · rintro c (hc | hc | hc)
      · exact (hcatBytes c hc).2
      · exact (hcatPackets c hc).2
      · exact (hcatFlows c hc).2
  · rintro ⟨hiface, happ, hcategory, hhost, hlabel⟩
    simp only [hiface, clean_proc i hiface, true_and, and_true]
    refine ⟨⟨⟨⟨⟨⟨⟨⟨?_, ?_⟩, ?_⟩, ?_⟩, ?_⟩, ?_⟩, ?_⟩, hhost⟩, hlabel⟩
    · exact fun a ha => happ a (.inl ha)
    · exact fun a ha => happ a (.inr (.inl ha))
    · exact fun a ha => happ a (.inr (.inr (.inl ha)))
    · exact fun a ha => happ a (.inr (.inr (.inr ha)))
    · exact fun c hc => hcategory c (.inl hc)
    · exact fun c hc => hcategory c (.inr (.inl hc))
    · exact fun c hc => hcategory c (.inr (.inr hc))

/-! ### The response -/

/-- **The response.** In any state of the engine, the response is a page of the format with the
content that it should have, if and only if the page fits the buffer and every name on it is UTF-8
and has no quote, no backslash and no newline. -/
theorem reads_body_iff (env : Env) (e : Engine) (i : MetricsIn) (mem : ℕ → UInt8) :
    Reads (writeMetrics env e i mem).body (pageContent env e i) ↔
      pageSize env e i < bodySize ∧ CleanNames env e i := by
  have hpage := write_pageContent env e i
  have hz : 0 ∉ write id (pageContent env e i) := by
    rw [← hpage, List.mem_flatten]
    rintro ⟨s, hs, hzero⟩
    exact unterminated_metricsPage env e i s hs hzero
  have hsize : (metricsPage env e i).flatten.length = pageSize env e i := size_metricsPage env e i
  have hvalid : (∀ x ∈ pageContent env e i, x.Valid) ↔
      ∀ x ∈ pageContent env e i, x.Values Utf8 :=
    forall₂_congr fun x hx => and_iff_right (formed_pageContent env e i x hx)
  have hclean : CleanNames env e i ↔ (∀ x ∈ pageContent env e i, x.Values Utf8) ∧
      write id (pageContent env e i) = write escape (pageContent env e i) := by
    rw [← allClean_pageContent, write_id_eq_iff, ← forall₂_and]
    exact forall₂_congr fun x _ => Line.values_clean_iff.trans and_comm
  rw [Reads, hvalid, hclean, and_left_comm, and_congr_right_iff, ← hpage, ← hsize]
  intro _
  unfold writeMetrics
  dsimp only
  generalize metricsPage env e i = page at hpage
  constructor
  · intro h
    by_cases hfits : page.flatten.length < bodySize
    · rw [FormatBuffer.contents_of_fits (fun _ h => sizeT_of_le h) hfits] at h
      exact ⟨hfits, h⟩
    · -- the response holds a terminator, which no content has
      have hmem : 0 ∈ (FormatBuffer.render sizeT bodySize 0 mem page).contents :=
        FormatBuffer.terminator_mem_contents (fun _ h => sizeT_of_le h) (by norm_num [bodySize])
          (not_lt.mp hfits)
      rw [h] at hmem
      exact absurd (mem_write_escape (by decide) hmem) hz
  · rintro ⟨hfits, h⟩
    rw [FormatBuffer.contents_of_fits (fun _ h => sizeT_of_le h) hfits]
    exact h

/-! ### Runs -/

/-- The labels that hostnames make are UTF-8 and have nothing to quote, and so are the hostnames of
the DNS cache. -/
def cleanRules (env : Env) : NameRules where
  sni host := ∀ l ∈ env.newLabel host, Clean (cString l)
  dns host := Clean (cString host) ∧
    (dnsMatchApp host = 0 → ∀ l ∈ env.newLabel host, Clean (cString l))
  label l := Clean (cString l)
  app _ _ := True

/-- nDPI's names of protocols and categories are UTF-8 and have nothing to quote. -/
structure Env.NamesClean (env : Env) : Prop where
  proto : ∀ app, ∀ name ∈ env.getProtoName app, Clean (cString name)
  category : ∀ c, ∀ name ∈ env.categoryGetName c, Clean (cString name)

theorem closed_cleanRules (env : Env) : (cleanRules env).Closed env where
  mono _ _ := trivial
  sniLabel h hl := h _ hl
  dnsLabel h hunknown hl := h.2 hunknown _ hl
  none := trivial
  labelId _ _ := trivial
  matched _ := trivial
  table _ := trivial
  mcp _ := trivial
  model _ := trivial

theorem clean_appName {env : Env} (h : env.NamesClean) {e : Engine}
    (hlabels : ∀ l ∈ e.dynLabels, Clean (cString l)) (a : Fin numApps) :
    Clean (cString (e.appName env a)) := by
  have hservices : ∀ s ∈ ndpiAiAppNames, Clean (cString (text s.2)) := by decide +kernel
  have hnull : Clean (cString (text "(null)")) := by decide +kernel
  rw [Engine.appName]
  cases hname : ndpiEngineAppName env e.dynLabels (UInt16.ofNat a) with
  | none => exact hnull
  | some name =>
    rw [Option.getD_some]
    rw [ndpiEngineAppName] at hname
    split at hname
    case h_1 ai hai =>
      obtain ⟨s, hs, hai⟩ := exists_mem_of_ndpiAiAppName hai
      rw [← Option.some.inj hname, ← hai]
      exact hservices _ hs
    case h_2 =>
      split at hname
      · exact hlabels name (List.mem_of_getElem? hname)
      · exact h.proto _ name hname

namespace EngineRun

/-- Every name on the page is clean when nDPI's names and the name of the interface are, and every
hostname in a DNS response and every label that a hostname makes, in the bytes that are kept. -/
theorem cleanNames_run {env : Env} (henv : env.NamesClean) {iface : Bytes}
    (hiface : Clean (cString iface)) (ml dump : Bool) {ops : List EngineOp}
    (hops : ∀ op ∈ ops, op.Obeys (cleanRules env)) (i : MetricsIn) :
    CleanNames env (run (step env) (start iface ml dump) ops).engine i := by
  have hw := obeys_run (closed_cleanRules env) iface ml dump ops hops
  have hset := settings_run env (start iface ml dump) ops
  generalize run (step env) (start iface ml dump) ops = w at hw hset
  have hunknown : Clean (cString (text "unknown")) := by decide +kernel
  have hdefault : Clean (cString (text "Unspecified")) := by decide +kernel
  refine ⟨?_, fun a _ => ?_, fun c _ => ?_, fun ce hce => ?_, hw.engine.label⟩
  · have hname : w.engine.iface = iface := congrArg Prod.snd hset
    rw [Engine.ifaceName, hname]
    split
    · exact hiface
    · exact hunknown
  · exact clean_appName henv hw.engine.label a
  · rw [Engine.categoryName]
    cases hname : env.categoryGetName (UInt8.ofNat c) with
    | none => exact hdefault
    | some name => exact henv.category _ name hname
  · rw [Engine.dnsEntries, List.mem_filter, List.mem_map] at hce
    obtain ⟨⟨k, -, rfl⟩, hshown⟩ := hce
    rcases (hw.engine.cached k).host with hnil | hclean
    · simp [Engine.shownDns, hnil] at hshown
    · exact hclean.1

/-- **Responses in runs.** In every state of every run, the response is a page of the format with
the content that it should have, if and only if the page fits the buffer and every name on it is
UTF-8 and has no quote, no backslash and no newline. That is so of every name when it is so of
nDPI's names and of the name of the interface, and of every hostname in a DNS response and every
label that a hostname makes, in the bytes that are kept of them. -/
theorem metrics_wellFormed_run (env : Env) (iface : Bytes) (ml dump : Bool) (ops : List EngineOp)
    (i : MetricsIn) (mem : ℕ → UInt8) :
    let w := run (step env) (start iface ml dump) ops
    (Reads (writeMetrics env w.engine i mem).body (pageContent env w.engine i) ↔
      pageSize env w.engine i < bodySize ∧ CleanNames env w.engine i) ∧
    (env.NamesClean → Clean (cString iface) → (∀ op ∈ ops, op.Obeys (cleanRules env)) →
      CleanNames env w.engine i) := by
  intro w
  exact ⟨reads_body_iff env w.engine i mem,
    fun henv hiface hops => cleanNames_run henv hiface ml dump hops i⟩

end EngineRun

/-! ### A sample run -/

/-- A library that names its protocols and categories by their numbers, and knows no hostname. -/
def numberEnv : Env :=
  { (default : Env) with
    getProtoName := fun app => some (decimal app.toNat)
    categoryGetName := fun c => some (decimal c.toNat) }

theorem namesClean_numberEnv : numberEnv.NamesClean where
  proto app _ h := Option.some.inj h ▸ clean_decimal app.toNat
  category c _ h := Option.some.inj h ▸ clean_decimal c.toNat

/-- A DNS response for `mistral.ai`: the address 1.2.3.4 for 60 seconds. -/
def mistralResponse : Bytes :=
  [0x45, 0, 0, 72, 0, 0, 0, 0, 64, 17, 0, 0, 8, 8, 8, 8, 10, 0, 0, 1,
    0, 53, 0x9C, 0x40, 0, 52, 0, 0, 1, 2, 0x81, 0x80, 0, 1, 0, 1, 0, 0, 0, 0,
    7, 109, 105, 115, 116, 114, 97, 108, 2, 97, 105, 0, 0, 1, 0, 1,
    0xC0, 12, 0, 1, 0, 1, 0, 0, 0, 60, 0, 4, 1, 2, 3, 4]

/-- The event of `mistralResponse`, captured whole. -/
def mistralEvent : FlowEvent where
  key :=
    { srcIp := 0x08080808, dstIp := 0x0100000A, srcPort := 0x3500, dstPort := 0x409C
      proto := ipprotoUdp }
  pktData i := mistralResponse.getD i 0
  pktLen := 72
  dataLen := 72

theorem dnsParse_mistralEvent :
    dnsParse (memoryReader mistralEvent.pktData) mistralEvent.dataLen =
      .ok [⟨0x04030201, text "mistral.ai", 60⟩] := by
  decide +kernel

/-- nDPI's answers for a TLS flow, with the server name that it finds. -/
def tlsAnswers (host : Bytes) : Answers := { detection := { app := 91 }, detectionHost := host }

namespace EngineRun

/-- The response, a flow to its address, a flow to `www.spotify.com`, and one that nDPI alone
knows. -/
def sampleOps : List EngineOp :=
  [.process mistralEvent (-1) {}, .process visitEvent (-1) (tlsAnswers []),
    .process udpEvent (-1) (tlsAnswers (text "www.spotify.com")),
    .process { udpEvent with key := { udpEvent.key with srcPort := 0x419C } } (-1) (tlsAnswers [])]

/-- The engine after `sampleOps`. -/
def sampleRun : EngineRun := run (step numberEnv) (start (text "eth0") true false) sampleOps

/-- Its flows are of a service, of a label and of a protocol of nDPI. -/
theorem sampleRun_view :
    sampleRun.engine.dynLabels = [text "Spotify"] ∧
      (∀ app ∈ [(306 : Fin numApps), 400, 91], sampleRun.engine.appFlows app = 1) ∧
      sampleRun.engine.dnsCache (dnsHash 0x04030201) =
        { ip := 0x04030201, expires := 60, cachedAppId := 306, hostname := text "mistral.ai" } := by
  decide +kernel

theorem pageSize_sampleRun : pageSize numberEnv sampleRun.engine {} < bodySize := by
  decide +kernel

theorem obeys_sampleOps : ∀ op ∈ sampleOps, op.Obeys (cleanRules numberEnv) := by
  have hlabel : ∀ l ∈ numberEnv.newLabel (strncpy (text "www.spotify.com") 79),
      Clean (cString l) := by decide +kernel
  have hnone : cString (tlsAnswers []).detectionHost ≠ [] →
      (cleanRules numberEnv).sni (strncpy [] 79) := fun h => absurd rfl h
  have hgiveup (host : Bytes) : cString (tlsAnswers host).giveupHost ≠ [] →
      (cleanRules numberEnv).sni (strncpy [] 79) := fun h => absurd rfl h
  simp only [sampleOps, List.forall_mem_cons]
  refine ⟨⟨fun _ l hl => ?_, trivial, fun h => absurd rfl h, trivial, fun h => absurd rfl h⟩,
    ⟨fun hport => absurd hport (by decide), trivial, hnone, trivial, hgiveup _⟩,
    ⟨fun hport => absurd hport (by decide), trivial, fun _ => hlabel, trivial, hgiveup _⟩,
    ⟨fun hport => absurd hport (by decide), trivial, hnone, trivial, hgiveup _⟩,
    List.forall_mem_nil _⟩
  rw [dnsParse_mistralEvent] at hl
  rw [← Except.ok.inj hl, List.forall_mem_singleton]
  exact ⟨by decide +kernel, fun hunknown => absurd hunknown (by decide +kernel)⟩

theorem cleanNames_sampleRun : CleanNames numberEnv sampleRun.engine {} :=
  cleanNames_run namesClean_numberEnv (by decide +kernel) true false obeys_sampleOps {}

/-- The page of the sample run, with the hostname in the DNS cache, the label and the names of
nDPI. -/
theorem metrics_wellFormed_run_sample :
    (sampleRun.engine.dynLabels = [text "Spotify"] ∧
      (∀ app ∈ [(306 : Fin numApps), 400, 91], sampleRun.engine.appFlows app = 1) ∧
      sampleRun.engine.dnsCache (dnsHash 0x04030201) =
        { ip := 0x04030201, expires := 60, cachedAppId := 306, hostname := text "mistral.ai" }) ∧
      CleanNames numberEnv sampleRun.engine {} ∧
      Reads (writeMetrics numberEnv sampleRun.engine {} fun _ => 0).body
        (pageContent numberEnv sampleRun.engine {}) := by
  have hreads := metrics_wellFormed_run numberEnv (text "eth0") true false sampleOps {} fun _ => 0
  have hclean := hreads.2 namesClean_numberEnv (by decide +kernel) obeys_sampleOps
  exact ⟨sampleRun_view, hclean, hreads.1.mpr ⟨pageSize_sampleRun, hclean⟩⟩

/-- The event of a DNS response like `dnsResponse`, with a quote in the hostname. -/
def quoteEvent : FlowEvent where
  key :=
    { srcIp := 0x08080808, dstIp := 0x0100000A, srcPort := 0x3500, dstPort := 0x409C
      proto := ipprotoUdp }
  pktData i := (dnsResponse.set 42 34).getD i 0
  pktLen := 68
  dataLen := 68

/-- A hostname with a quote comes out of its quotes. -/
theorem quoted_hostname_breaks_page : ¬ ∀ (env : Env) (iface : Bytes) (ml dump : Bool)
    (ops : List EngineOp) (i : MetricsIn) (mem : ℕ → UInt8),
    let w := run (step env) (start iface ml dump) ops
    Reads (writeMetrics env w.engine i mem).body (pageContent env w.engine i) := by
  intro h
  have hreads := h default (text "eth0") true false [.process quoteEvent (-1) {}] {} fun _ => 0
  obtain ⟨-, hplain⟩ := (reads_body_iff _ _ _ _).mp hreads
  generalize hw : run (step default) (start (text "eth0") true false)
    [.process quoteEvent (-1) {}] = w at hplain
  have hentry : w.engine.dnsCache (dnsHash 0x04030201) =
      { ip := 0x04030201, expires := 60, cachedAppId := 0
        hostname := [97, 34, 99, 46, 105, 111] } := by
    rw [← hw]
    decide +kernel
  have hhost := hplain.hostname (w.engine.dnsCache (dnsHash 0x04030201)) ?_
  · rw [hentry] at hhost
    exact absurd hhost (by decide +kernel)
  · rw [Engine.dnsEntries, List.mem_filter, List.mem_map]
    refine ⟨⟨_, List.mem_finRange _, rfl⟩, ?_⟩
    rw [hentry]
    decide +kernel

end EngineRun

end NdpiObserve
