import NdpiObserve.Daemon.Engine
import NdpiObserve.Kernel.ProcessPkt
import NdpiObserve.Library.FormatBuffer

/-!
# The metrics page

`write_metrics` of `daemon/prometheus.c`: the lines that it formats one after the other into a
buffer of `131072` bytes, and the response. The page is the list of the formatted lines, one for
each `APPEND`; the buffer is a `FormatBuffer`. The buffer is there: when `malloc` fails nothing is
sent. What the function reads besides the engine is an argument (`MetricsIn`).

## Main definitions

* `Metric`, `sample`: a metric with its two comment lines, and the line of one of its values.
* `metricsPage`: the formatted lines.
* `writeMetrics`: the response, with the room that was left for each line.
-/

namespace NdpiObserve

open Floats

/-! ### Formats -/

/-- `%lu`, `%u` and `%d` of a number that is not negative. -/
def decimal (n : ℕ) : Bytes :=
  if n = 0 then [48] else (Nat.digits 10 n).reverse.map fun d => UInt8.ofNat (48 + d)

theorem mem_decimal {n : ℕ} {b : UInt8} (h : b ∈ decimal n) :
    ∃ d < 10, b = UInt8.ofNat (48 + d) := by
  rw [decimal] at h
  split at h
  case isTrue => exact ⟨0, by norm_num, List.mem_singleton.mp h⟩
  case isFalse =>
    obtain ⟨d, hd, rfl⟩ := List.mem_map.mp h
    exact ⟨d, Nat.digits_lt_base (by norm_num) (List.mem_reverse.mp hd), rfl⟩

/-- `%ld`. -/
def decimalInt (z : ℤ) : Bytes := if z < 0 then 45 :: decimal z.natAbs else decimal z.natAbs

/-- `%.3f` of a number of thousandths. -/
def fixed3 (n : ℕ) : Bytes :=
  decimal (n / 1000) ++ text "." ++
    [n / 100 % 10, n / 10 % 10, n % 10].map fun d => UInt8.ofNat (48 + d)

/-- A metric, with the texts of its comment lines. -/
structure Metric where
  name : String
  help : String
  kind : String

/-- The comment lines of a metric. -/
def Metric.head (m : Metric) : List Bytes :=
  [text "# HELP " ++ text m.name ++ text " " ++ text m.help ++ text "\n",
    text "# TYPE " ++ text m.name ++ text " " ++ text m.kind ++ text "\n"]

/-- A label of a value, behind the interface. -/
def labelText (l : String × Bytes) : Bytes :=
  text "," ++ text l.1 ++ text "=\"" ++ cString l.2 ++ text "\""

/-- The line of one value of a metric. -/
def sample (m : Metric) (iface : Bytes) (labels : List (String × Bytes)) (value : Bytes) : Bytes :=
  text m.name ++ text "\x7biface=\"" ++ cString iface ++ text "\"" ++ labels.flatMap labelText ++
    text "\x7d " ++ value ++ text "\n"

/-! ### What the page shows -/

/-- The fields of `/proc/self/stat` that are read, and the units they are in. -/
structure ProcStat where
  utime : UInt64 := 0
  stime : UInt64 := 0
  rss : ℤ := 0
  /-- `sysconf(_SC_CLK_TCK)` and `sysconf(_SC_PAGE_SIZE)`. -/
  clk : ℤ := 100
  page : ℤ := 4096

/-- `process_cpu_seconds_total`, in the thousandths that `%.3f` prints. -/
def ProcStat.cpuSec (p : ProcStat) : ℕ :=
  let clk := if p.clk ≤ 0 then 100 else p.clk
  let cpuSec :=
    binary64.round (binary64.round (p.utime + p.stime).toNat / binary64.round clk)
  (roundEven (1000 * cpuSec)).toNat

/-- `process_resident_memory_bytes`. -/
def ProcStat.resident (p : ProcStat) : ℤ := p.rss * if p.page ≤ 0 then 4096 else p.page

/-- What `write_metrics` reads besides the engine. -/
structure MetricsIn where
  appCntFd : ℤ := -1
  /-- `libbpf_num_possible_cpus`. -/
  numPossibleCpus : ℤ := 1
  /-- `bpf_map_lookup_elem` on `app_counters`: the counters of an application on each CPU. -/
  lookup : Fin numApps → Option (ℕ → ObsAppCnt) := fun _ => none
  /-- `time(NULL)`. -/
  time : ℤ := 0
  /-- `/proc/self/stat`, when it can be opened. -/
  procStat : Option ProcStat := none

namespace MetricsIn

/-- The number of CPUs whose counters are read. -/
def ncpu (i : MetricsIn) : ℕ :=
  if i.numPossibleCpus < 0 then 1
  else if i.numPossibleCpus > 256 then 256
  else i.numPossibleCpus.toNat

/-- The counters of an application that are read from the kernel. -/
def perCpu (i : MetricsIn) (app : Fin numApps) : List ObsAppCnt :=
  if i.appCntFd ≥ 0 then ((i.lookup app).map fun c => (List.range i.ncpu).map c).getD [] else []

/-- A counter of the engine with what the kernel counted. -/
def merged (i : MetricsIn) (c : Fin numApps → UInt64) (get : ObsAppCnt → UInt64)
    (app : Fin numApps) : UInt64 :=
  (i.perCpu app).foldl (fun sum cnt => sum + get cnt) (c app)

/-- The sum of what the kernel counted over all applications. -/
def fastpath (i : MetricsIn) (get : ObsAppCnt → UInt64) : UInt64 :=
  ((List.finRange numApps).flatMap i.perCpu).foldl (fun sum cnt => sum + get cnt) 0

end MetricsIn

namespace Engine

/-- The name of the interface on the page. -/
def ifaceName (e : Engine) : Bytes := if cString e.iface ≠ [] then e.iface else text "unknown"

/-- `%s` of the name of an application; a null pointer prints as `(null)`. -/
def appName (env : Env) (e : Engine) (app : Fin numApps) : Bytes :=
  (ndpiEngineAppName env e.dynLabels (UInt16.ofNat app)).getD (text "(null)")

def categoryName (env : Env) (c : Fin numCats) : Bytes :=
  (env.categoryGetName (UInt8.ofNat c)).getD (text "Unspecified")

/-- The entry of the DNS cache is shown. -/
def shownDns (now : UInt32) (ce : DnsCacheEntry) : Bool :=
  ce.ip ≠ 0 && ce.hostname ≠ [] && now < ce.expires

/-- `%u.%u.%u.%u` of the bytes of an address. -/
def dotted (ip : UInt32) : Bytes :=
  match bytes32 ip with
  | [a, b, c, d] =>
    decimal a.toNat ++ text "." ++ decimal b.toNat ++ text "." ++ decimal c.toNat ++ text "." ++
      decimal d.toNat
  | _ => []

/-- The shown entries of the DNS cache. -/
def dnsEntries (e : Engine) (now : UInt32) : List DnsCacheEntry :=
  ((List.finRange dnsCacheSize).map e.dnsCache).filter (shownDns now)

end Engine

/-- The `method` labels of the classification counters. -/
def classifiedMethods : List (CreditMethod × String) :=
  [(.ndpi, "ndpi"), (.giveup, "giveup"), (.ml, "ml"), (.sni, "sni"), (.dns, "dns")]

/-! ### The page -/

def infoMetric : Metric := ⟨"ndpi_observe_info", "Static daemon metadata", "gauge"⟩

def flowsCreatedMetric : Metric :=
  ⟨"ndpi_observe_flows_created_total", "Total flows seen", "counter"⟩

def flowsClassifiedMetric : Metric :=
  ⟨"ndpi_observe_flows_classified_total", "Flows successfully classified", "counter"⟩

def flowsGuessedMetric : Metric :=
  ⟨"ndpi_observe_flows_guessed_total", "Flows rescued by ndpi_detection_giveup()", "counter"⟩

def flowsMlMetric : Metric :=
  ⟨"ndpi_observe_flows_ml_total", "Flows rescued by ML model", "counter"⟩

def flowsGaveUpMetric : Metric :=
  ⟨"ndpi_observe_flows_gave_up_total", "Flows that hit the give-up threshold", "counter"⟩

def flowsActiveMetric : Metric :=
  ⟨"ndpi_observe_flows_active", "Current active flows", "gauge"⟩

def packetsScannedMetric : Metric :=
  ⟨"ndpi_observe_packets_scanned_total", "Packets sent to nDPI", "counter"⟩

def packetsFastpathMetric : Metric :=
  ⟨"ndpi_observe_packets_fastpath_total",
    "Packets counted in BPF fast path (no userspace copy)", "counter"⟩

def bytesFastpathMetric : Metric :=
  ⟨"ndpi_observe_bytes_fastpath_total",
    "Bytes counted in BPF fast path (no userspace copy)", "counter"⟩

def appBytesMetric : Metric :=
  ⟨"ndpi_observe_app_bytes_total", "Bytes per application", "counter"⟩

def appPacketsMetric : Metric :=
  ⟨"ndpi_observe_app_packets_total", "Packets per application", "counter"⟩

def appFlowsMetric : Metric :=
  ⟨"ndpi_observe_app_flows_total", "Flows per application", "counter"⟩

def appClassifiedMetric : Metric :=
  ⟨"ndpi_observe_app_classified_total", "Flows classified per app and method", "counter"⟩

def categoryBytesMetric : Metric :=
  ⟨"ndpi_observe_category_bytes_total", "Bytes per traffic category", "counter"⟩

def categoryPacketsMetric : Metric :=
  ⟨"ndpi_observe_category_packets_total", "Packets per traffic category", "counter"⟩

def categoryFlowsMetric : Metric :=
  ⟨"ndpi_observe_category_flows_total", "Flows per traffic category", "counter"⟩

def dnsCacheEntryMetric : Metric :=
  ⟨"ndpi_observe_dns_cache_entry", "TTL remaining for each IP→hostname entry", "gauge"⟩

def dnsCacheEntriesMetric : Metric :=
  ⟨"ndpi_observe_dns_cache_entries", "Active entries in the IP→hostname DNS cache", "gauge"⟩

def dnsCacheSizeMetric : Metric :=
  ⟨"ndpi_observe_dns_cache_size", "Total slots in the DNS cache", "gauge"⟩

def dynLabelMetric : Metric :=
  ⟨"ndpi_observe_dyn_label_info", "Auto-discovered SaaS labels from DNS hostnames", "gauge"⟩

def cpuMetric : Metric :=
  ⟨"process_cpu_seconds_total", "Total CPU time used by ndpid", "counter"⟩

def residentMetric : Metric :=
  ⟨"process_resident_memory_bytes", "RSS memory used by ndpid", "gauge"⟩

/-- A metric with one value. -/
def Metric.single (m : Metric) (iface : Bytes) (value : Bytes) : List Bytes :=
  m.head ++ [sample m iface [] value]

/-- A metric with a value for each index at which the counter is not zero. -/
def Metric.table {n : ℕ} (m : Metric) (iface : Bytes) (label : String) (name : Fin n → Bytes)
    (c : Fin n → UInt64) : List Bytes :=
  m.head ++ (List.finRange n).flatMap fun i =>
    if c i = 0 then [] else [sample m iface [(label, name i)] (decimal (c i).toNat)]

/-- The classification counters. An application without any has no line. -/
def classifiedLines (env : Env) (e : Engine) : List Bytes :=
  appClassifiedMetric.head ++ (List.finRange numApps).flatMap fun i =>
    classifiedMethods.flatMap fun m =>
      if 0 < e.appClassified m.1 i then
        [sample appClassifiedMetric e.ifaceName [("app", e.appName env i), ("method", text m.2)]
          (decimal (e.appClassified m.1 i).toNat)]
      else []

def dnsLines (e : Engine) (now : UInt32) : List Bytes :=
  dnsCacheEntryMetric.head ++
    ((e.dnsEntries now).map fun ce =>
      sample dnsCacheEntryMetric e.ifaceName
        [("ip", Engine.dotted ce.ip), ("hostname", ce.hostname)]
        (decimal (ce.expires - now).toNat)) ++
    dnsCacheEntriesMetric.single e.ifaceName (decimal (e.dnsEntries now).length) ++
    dnsCacheSizeMetric.single e.ifaceName (decimal dnsCacheSize)

def dynLabelLines (e : Engine) : List Bytes :=
  if e.dynLabels.length > 0 then
    dynLabelMetric.head ++ e.dynLabels.mapIdx fun i label =>
      sample dynLabelMetric e.ifaceName [("label", label), ("id", decimal (400 + i))] (decimal 1)
  else []

def procLines (e : Engine) (i : MetricsIn) : List Bytes :=
  match i.procStat with
  | none => []
  | some p =>
    cpuMetric.single e.ifaceName (fixed3 p.cpuSec) ++
      residentMetric.single e.ifaceName (decimalInt p.resident)

/-- The formatted lines, in order. -/
def metricsPage (env : Env) (e : Engine) (i : MetricsIn) : List Bytes :=
  let iface := e.ifaceName
  infoMetric.single iface (decimal 1) ++
    flowsCreatedMetric.single iface (decimal e.flows.totalCreated.toNat) ++
    flowsClassifiedMetric.single iface (decimal e.flowsClassified.toNat) ++
    flowsGuessedMetric.single iface (decimal e.flowsGuessed.toNat) ++
    flowsMlMetric.single iface (decimal e.flowsMlClassified.toNat) ++
    flowsGaveUpMetric.single iface (decimal e.flowsGaveUp.toNat) ++
    flowsActiveMetric.single iface (decimal e.flows.count.toNat) ++
    packetsScannedMetric.single iface (decimal e.pktsScanned.toNat) ++
    packetsFastpathMetric.single iface (decimal (i.fastpath ObsAppCnt.packets).toNat) ++
    bytesFastpathMetric.single iface (decimal (i.fastpath ObsAppCnt.bytes).toNat) ++
    appBytesMetric.table iface "app" (e.appName env) (i.merged e.appBytes ObsAppCnt.bytes) ++
    appPacketsMetric.table iface "app" (e.appName env)
      (i.merged e.appPackets ObsAppCnt.packets) ++
    appFlowsMetric.table iface "app" (e.appName env) (i.merged e.appFlows ObsAppCnt.flows) ++
    classifiedLines env e ++
    categoryBytesMetric.table iface "category" (Engine.categoryName env) e.catBytes ++
    categoryPacketsMetric.table iface "category" (Engine.categoryName env) e.catPackets ++
    categoryFlowsMetric.table iface "category" (Engine.categoryName env) e.catFlows ++
    dnsLines e (timeStamp i.time) ++
    dynLabelLines e ++
    procLines e i

/-! ### The response -/

/-- The size of the buffer. -/
def bodySize : ℕ := 131072

/-- The conversion of an `int` to `size_t`. -/
def sizeT (z : ℤ) : ℕ := (z % 2 ^ 64).toNat

/-- What is sent, and `131072 - pos` at each `APPEND`. -/
structure Response where
  contentLength : ℕ
  body : Bytes
  rooms : List ℤ

/-- `write_metrics`; `mem` is what the memory from the start of the buffer on holds. -/
def writeMetrics (env : Env) (e : Engine) (i : MetricsIn) (mem : ℕ → UInt8) : Response :=
  let b := FormatBuffer.render sizeT bodySize 0 mem (metricsPage env e i)
  { contentLength := b.pos, body := b.contents, rooms := b.rooms }

end NdpiObserve
