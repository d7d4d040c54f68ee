import NdpiObserve.Daemon.CallCredits
import NdpiObserve.Daemon.UnixSocket
import NdpiObserve.Library.ArrayWrite

/-!
# Reading the counters of all CPUs

`app_counters` has a copy for each possible CPU, and `bpf_map_lookup_elem` writes the counters of
an application on all of them to the array it is given, one behind the other. `handle_show_stats`,
`handle_show_applications` and `write_metrics` give it an array of 256 elements. They limit the
number of elements that they add up, but nothing limits what the lookup writes.

What the program does after a write behind the end of the array is not defined, so such a run has
no result here. All other runs have the sums that the descriptions of the reports and of the page
start from (`MetricsIn`).

## Main definitions

* `lookupAppCounters`: the lookup.
* `statsFastpath`, `applicationsSums`, `metricsSums`: the sums in the three functions.

## Main results

* `sums_eq_metricsIn`: the sums of the loops are those that the reports show.
* `sums_complete_iff`: when they are complete.
-/

namespace NdpiObserve

open ArrayWrite

/-- The number of elements of `per_cpu`. -/
abbrev perCpuSize : ℕ := 256

section Reading

-- The kernel, and the number of possible CPUs, which `libbpf_num_possible_cpus` returns.
variable (s : Kernel) (ncpu : ℕ)

/-- `bpf_map_lookup_elem` on `app_counters`, or the place of a write behind the end of `perCpu`. -/
def lookupAppCounters (app : Fin numApps) (perCpu : Vector ObsAppCnt perCpuSize) :
    Except ℕ (Vector ObsAppCnt perCpuSize) :=
  writeAll ((List.range ncpu).map fun cpu => s.appCounters cpu app) perCpu

/-- The loops of the three functions: the counters of each application on each CPU are added, in
the function's own way, to what it has added up. -/
def readCounters {σ : Type} (add : Fin numApps → σ → ObsAppCnt → σ) (init : σ) : Except ℕ σ :=
  (List.finRange numApps).foldlM (fun sums app => do
    let perCpu ← lookupAppCounters s ncpu app (Vector.replicate perCpuSize {})
    return (perCpu.toList.take (MetricsIn.ofKernel s ncpu).ncpu).foldl (add app) sums) init

/-- `bpf_fastpath_pkts` in `handle_show_stats`. -/
def statsFastpath : Except ℕ UInt64 :=
  readCounters s ncpu (fun _ pkts cnt => pkts + cnt.packets) 0

/-- The arrays `bytes`, `packets` and `flows`. -/
@[ext]
structure AppSums where
  bytes : Fin numApps → UInt64
  packets : Fin numApps → UInt64
  flows : Fin numApps → UInt64

def AppSums.add (app : Fin numApps) (t : AppSums) (cnt : ObsAppCnt) : AppSums where
  bytes := addAt t.bytes app cnt.bytes
  packets := addAt t.packets app cnt.packets
  flows := addAt t.flows app cnt.flows

/-- The arrays before the counters of the kernel are added. -/
def Engine.appSums (e : Engine) : AppSums where
  bytes := e.appBytes
  packets := e.appPackets
  flows := e.appFlows

/-- The arrays of `handle_show_applications`. -/
def applicationsSums (e : Engine) : Except ℕ AppSums :=
  readCounters s ncpu AppSums.add e.appSums

/-- The arrays of `write_metrics`, with `bpf_fastpath_pkts` and `bpf_fastpath_bytes`. -/
@[ext]
structure PageSums extends AppSums where
  fastpathPkts : UInt64
  fastpathBytes : UInt64

def PageSums.add (app : Fin numApps) (t : PageSums) (cnt : ObsAppCnt) : PageSums where
  toAppSums := t.toAppSums.add app cnt
  fastpathPkts := t.fastpathPkts + cnt.packets
  fastpathBytes := t.fastpathBytes + cnt.bytes

/-- The sums of `write_metrics` before the counters of the kernel are added. -/
def Engine.pageSums (e : Engine) : PageSums where
  toAppSums := e.appSums
  fastpathPkts := 0
  fastpathBytes := 0

def metricsSums (e : Engine) : Except ℕ PageSums := readCounters s ncpu PageSums.add e.pageSums

end Reading

/-! ### The loops -/

theorem foldl_addAt (get : ObsAppCnt → UInt64) (app : Fin numApps) (l : List ObsAppCnt)
    (c : Fin numApps → UInt64) :
    l.foldl (fun c cnt => addAt c app (get cnt)) c = addAt c app (l.map get).sum := by
  induction l generalizing c with
  | nil =>
    ext a
    simp [addAt_apply]
  | cons cnt l ih =>
    rw [List.foldl_cons, ih]
    ext a
    simp only [addAt_apply, List.map_cons, List.sum_cons]
    split_ifs
    · rw [add_assoc]
    · rw [add_zero]

/-- Each application is added to once. -/
theorem foldl_finRange_addAt (c g : Fin numApps → UInt64) :
    (List.finRange numApps).foldl (fun c (app : Fin numApps) => addAt c app (g app)) c =
      fun a => c a + g a := by
  have happs (l : List (Fin numApps)) (a : Fin numApps) :
      l.foldl (fun c (app : Fin numApps) => addAt c app (g app)) c a =
        c a + (l.map fun app => if a = app then g app else 0).sum := by
    induction l using List.reverseRecOn with
    | nil => simp
    | append_singleton l app ih =>
      rw [List.foldl_concat, addAt_apply, ih, List.map_append, List.sum_append, List.map_singleton,
        List.sum_singleton, add_assoc]
      simp only [Fin.val_inj]
  funext a
  rw [happs, ← Fin.sum_univ_def, Finset.sum_ite_eq, if_pos (Finset.mem_univ a)]

section Counters

variable {σ : Type} (i : MetricsIn) (add : Fin numApps → σ → ObsAppCnt → σ)

/-- The loops on what the lookups have written. -/
def addCounters (t : σ) : σ :=
  (List.finRange numApps).foldl (fun t app => (i.perCpu app).foldl (add app) t) t

/-- An array to which the loops add the counters holds the merged counters. -/
theorem addCounters_array (π : σ → Fin numApps → UInt64) (get : ObsAppCnt → UInt64)
    (hπ : ∀ app t cnt, π (add app t cnt) = addAt (π t) app (get cnt)) (t : σ) :
    π (addCounters i add t) = i.merged (π t) get := by
  have hinner (t : σ) (app : Fin numApps) : π ((i.perCpu app).foldl (add app) t) =
      addAt (π t) app ((i.perCpu app).map get).sum := by
    rw [← foldl_addAt]
    exact (List.foldl_hom π fun t cnt => (hπ app t cnt).symm).symm
  calc π (addCounters i add t)
      = (List.finRange numApps).foldl
          (fun c (app : Fin numApps) => addAt c app ((i.perCpu app).map get).sum) (π t) :=
        (List.foldl_hom π fun t app => (hinner t app).symm).symm
    _ = fun a => π t a + ((i.perCpu a).map get).sum := foldl_finRange_addAt (π t) _
    _ = i.merged (π t) get := (funext fun a => i.merged_eq (π t) get a).symm

/-- A number to which the loops add the counters is their sum over all applications. -/
theorem addCounters_number (π : σ → UInt64) (get : ObsAppCnt → UInt64)
    (hπ : ∀ app t cnt, π (add app t cnt) = π t + get cnt) (t : σ) :
    π (addCounters i add t) = π t + i.fastpath get := by
  have hinner (t : σ) (app : Fin numApps) : π ((i.perCpu app).foldl (add app) t) =
      (i.perCpu app).foldl (fun x cnt => x + get cnt) (π t) :=
    (List.foldl_hom π fun t cnt => (hπ app t cnt).symm).symm
  calc π (addCounters i add t)
      = (List.finRange numApps).foldl
          (fun x app => (i.perCpu app).foldl (fun x cnt => x + get cnt) x) (π t) :=
        (List.foldl_hom π fun t app => (hinner t app).symm).symm
    _ = ((List.finRange numApps).flatMap i.perCpu).foldl (fun x cnt => x + get cnt) (π t) :=
        List.foldl_flatMap.symm
    _ = π t + i.fastpath get := by
        rw [MetricsIn.fastpath, MetricsIn.foldl_add_eq, MetricsIn.foldl_add_eq, zero_add]

end Counters

variable {s : Kernel} {ncpu : ℕ}

/-- With at most 256 CPUs, the loops add the counters of all CPUs. -/
theorem readCounters_of_le {σ : Type} (h : ncpu ≤ perCpuSize)
    (add : Fin numApps → σ → ObsAppCnt → σ) (init : σ) : readCounters s ncpu add init =
      .ok (addCounters (MetricsIn.ofKernel s ncpu) add init) := by
  have hncpu : (MetricsIn.ofKernel s ncpu).ncpu = ncpu := by
    rw [MetricsIn.ncpu_ofKernel, min_eq_left h]
  have hstep (sums : σ) (app : Fin numApps) : (do
      let perCpu ← lookupAppCounters s ncpu app (Vector.replicate perCpuSize {})
      return (perCpu.toList.take (MetricsIn.ofKernel s ncpu).ncpu).foldl (add app) sums) =
      (pure (((MetricsIn.ofKernel s ncpu).perCpu app).foldl (add app) sums) : Except ℕ σ) := by
    have hlen : ((List.range ncpu).map fun cpu => s.appCounters cpu app).length = ncpu := by simp
    obtain ⟨w, hw, hlist⟩ := writeAll_of_le (N := perCpuSize) (hlen.trans_le h)
      (Vector.replicate perCpuSize {})
    have hread : w.toList.take ncpu = (List.range ncpu).map fun cpu => s.appCounters cpu app := by
      rw [hlist]
      exact List.take_left' hlen
    rw [lookupAppCounters, hw, hncpu, MetricsIn.perCpu_ofKernel, min_eq_left h, ← hread]
    rfl
  rw [readCounters, funext fun sums => funext fun app => hstep sums app]
  exact List.foldlM_pure

/-- With more CPUs, the first lookup writes behind the end of the array. -/
theorem readCounters_of_lt {σ : Type} (h : perCpuSize < ncpu)
    (add : Fin numApps → σ → ObsAppCnt → σ) (init : σ) :
    readCounters s ncpu add init = .error perCpuSize := by
  have hlookup (app : Fin numApps) (v : Vector ObsAppCnt perCpuSize) :
      lookupAppCounters s ncpu app v = .error perCpuSize :=
    writeAll_of_lt (by simpa using h) v
  rw [readCounters, List.finRange_succ, List.foldlM_cons, hlookup]
  rfl

/-! ### The sums -/

/-- **The reports.** With at most 256 CPUs, the sums of the loops are those that the reports and
the page show. -/
theorem sums_eq_metricsIn (h : ncpu ≤ perCpuSize) (e : Engine) :
    let i := MetricsIn.ofKernel s ncpu
    statsFastpath s ncpu = .ok (i.fastpath ObsAppCnt.packets) ∧
    applicationsSums s ncpu e = .ok
      { bytes := i.merged e.appBytes ObsAppCnt.bytes
        packets := i.merged e.appPackets ObsAppCnt.packets
        flows := i.merged e.appFlows ObsAppCnt.flows } ∧
    metricsSums s ncpu e = .ok
      { bytes := i.merged e.appBytes ObsAppCnt.bytes
        packets := i.merged e.appPackets ObsAppCnt.packets
        flows := i.merged e.appFlows ObsAppCnt.flows
        fastpathPkts := i.fastpath ObsAppCnt.packets
        fastpathBytes := i.fastpath ObsAppCnt.bytes } := by
  intro i
  refine ⟨?_, ?_, ?_⟩
  · rw [statsFastpath, readCounters_of_le h]
    have hpkts := addCounters_number i (fun _ pkts cnt => pkts + cnt.packets) id ObsAppCnt.packets
      (fun _ _ _ => rfl) 0
    rw [id, id, zero_add] at hpkts
    rw [hpkts]
  · rw [applicationsSums, readCounters_of_le h]
    have harray := addCounters_array i AppSums.add
    refine congrArg Except.ok (AppSums.ext ?_ ?_ ?_)
    · exact harray AppSums.bytes ObsAppCnt.bytes (fun _ _ _ => rfl) e.appSums
    · exact harray AppSums.packets ObsAppCnt.packets (fun _ _ _ => rfl) e.appSums
    · exact harray AppSums.flows ObsAppCnt.flows (fun _ _ _ => rfl) e.appSums
  · rw [metricsSums, readCounters_of_le h]
    have harray := addCounters_array i PageSums.add
    have hnumber := addCounters_number i PageSums.add
    generalize hsums : addCounters i PageSums.add e.pageSums = t
    have hbytes : t.bytes = i.merged e.appBytes ObsAppCnt.bytes := by
      rw [← hsums]
      exact harray (fun t => t.bytes) _ (fun _ _ _ => rfl) e.pageSums
    have hpackets : t.packets = i.merged e.appPackets ObsAppCnt.packets := by
      rw [← hsums]
      exact harray (fun t => t.packets) _ (fun _ _ _ => rfl) e.pageSums
    have hflows : t.flows = i.merged e.appFlows ObsAppCnt.flows := by
      rw [← hsums]
      exact harray (fun t => t.flows) _ (fun _ _ _ => rfl) e.pageSums
    have hfastPkts : t.fastpathPkts = i.fastpath ObsAppCnt.packets := by
      rw [← hsums, hnumber PageSums.fastpathPkts ObsAppCnt.packets fun _ _ _ => rfl]
      exact zero_add _
    have hfastBytes : t.fastpathBytes = i.fastpath ObsAppCnt.bytes := by
      rw [← hsums, hnumber PageSums.fastpathBytes ObsAppCnt.bytes fun _ _ _ => rfl]
      exact zero_add _
    rw [← hbytes, ← hpackets, ← hflows, ← hfastPkts, ← hfastBytes]

/-- The sum of a counter of an application over all CPUs. -/
def Kernel.cpuSum (s : Kernel) (ncpu : ℕ) (get : ObsAppCnt → UInt64) (app : Fin numApps) :
    UInt64 :=
  ∑ cpu ∈ Finset.range ncpu, get (s.appCounters cpu app)

theorem sum_perCpu_ofKernel (h : ncpu ≤ perCpuSize) (get : ObsAppCnt → UInt64)
    (app : Fin numApps) :
    (((MetricsIn.ofKernel s ncpu).perCpu app).map get).sum = s.cpuSum ncpu get app := by
  rw [MetricsIn.perCpu_ofKernel, min_eq_left h, List.map_map]
  rfl

/-- The counters of the engine with those of all CPUs. -/
def completeSums (s : Kernel) (ncpu : ℕ) (e : Engine) : AppSums where
  bytes app := e.appBytes app + s.cpuSum ncpu ObsAppCnt.bytes app
  packets app := e.appPackets app + s.cpuSum ncpu ObsAppCnt.packets app
  flows app := e.appFlows app + s.cpuSum ncpu ObsAppCnt.flows app

/-- No lookup writes behind the end of its array, and the three functions add up all counters. -/
structure CompleteSums (s : Kernel) (ncpu : ℕ) (e : Engine) : Prop where
  lookup : ∀ app perCpu, ∃ w, lookupAppCounters s ncpu app perCpu = .ok w
  stats : statsFastpath s ncpu = .ok (∑ app, s.cpuSum ncpu ObsAppCnt.packets app)
  applications : applicationsSums s ncpu e = .ok (completeSums s ncpu e)
  /-- `total_bytes`. -/
  total : ∀ t, applicationsSums s ncpu e = .ok t → ∑ app, t.bytes app =
    ∑ app, e.appBytes app + ∑ app, s.cpuSum ncpu ObsAppCnt.bytes app
  metrics : metricsSums s ncpu e = .ok
    { completeSums s ncpu e with
      fastpathPkts := ∑ app, s.cpuSum ncpu ObsAppCnt.packets app
      fastpathBytes := ∑ app, s.cpuSum ncpu ObsAppCnt.bytes app }

/-- **Reading all CPUs.** The sums are complete if and only if there are at most 256 CPUs. -/
theorem sums_complete_iff (s : Kernel) (ncpu : ℕ) (e : Engine) :
    CompleteSums s ncpu e ↔ ncpu ≤ perCpuSize := by
  constructor
  · intro h
    by_contra hmany
    have hstats := h.stats
    rw [statsFastpath, readCounters_of_lt (not_le.mp hmany)] at hstats
    cases hstats
  · intro h
    obtain ⟨hstats, happs, hmetrics⟩ := sums_eq_metricsIn (s := s) h e
    have hfast (get : ObsAppCnt → UInt64) :
        (MetricsIn.ofKernel s ncpu).fastpath get = ∑ app, s.cpuSum ncpu get app := by
      rw [MetricsIn.fastpath_eq]
      exact Finset.sum_congr rfl fun app _ => sum_perCpu_ofKernel h get app
    have hmerged (c : Fin numApps → UInt64) (get : ObsAppCnt → UInt64) :
        (MetricsIn.ofKernel s ncpu).merged c get = fun app => c app + s.cpuSum ncpu get app := by
      funext app
      rw [MetricsIn.merged_eq, sum_perCpu_ofKernel h]
    simp only [hfast, hmerged] at hstats happs hmetrics
    refine ⟨fun app perCpu => ?_, hstats, happs, fun t ht => ?_, hmetrics⟩
    · have hlen : ((List.range ncpu).map fun cpu => s.appCounters cpu app).length ≤ perCpuSize := by
        simpa using h
      obtain ⟨w, hw, -⟩ := writeAll_of_le hlen perCpu
      exact ⟨w, hw⟩
    · obtain rfl := Except.ok.inj (ht.symm.trans happs)
      exact Finset.sum_add_distrib

/-- On a machine with 384 CPUs, a lookup writes behind the end of its array. -/
theorem many_cpus_overrun :
    ¬∀ (s : Kernel) (ncpu : ℕ) (e : Engine), 1 ≤ ncpu → CompleteSums s ncpu e := by
  intro h
  have hstats := (h {} 384 ndpiEngineInit (by norm_num)).stats
  rw [statsFastpath, readCounters_of_lt (by norm_num)] at hstats
  cases hstats

end NdpiObserve
