import NdpiObserve.Daemon.Prometheus
import NdpiObserve.Library.Ledger

/-!
# Merged counters

`handle_show_applications` of `daemon/unix_socket.c` and `write_metrics` merge the counters of an
application alike: the counter of the engine, and those of the CPUs that are read from the kernel's
map. So what is shown is a sum, in 64 bits.

## Main definitions

* `MetricsIn.ReadsFrom`, `MetricsIn.ofKernel`: the counters that are read are those of the kernel.

## Main results

* `MetricsIn.merged_eq`: a merged counter is a sum.
* `MetricsIn.toNat_merged_le`: a merged counter shows no more than was counted on both sides.
-/

namespace NdpiObserve.MetricsIn

/-- The counters that are read are those of the kernel. -/
def ReadsFrom (i : MetricsIn) (s : Kernel) : Prop :=
  ∀ a c, i.lookup a = some c → ∀ cpu, c cpu = s.appCounters cpu a

/-- The counters of all CPUs are read. -/
def ofKernel (s : Kernel) (ncpu : ℕ) : MetricsIn where
  appCntFd := 0
  numPossibleCpus := ncpu
  lookup a := some fun cpu => s.appCounters cpu a

theorem readsFrom_ofKernel (s : Kernel) (ncpu : ℕ) : (ofKernel s ncpu).ReadsFrom s := by
  rintro a c ⟨⟩ cpu
  rfl

/-- At most 256 CPUs are read. -/
theorem ncpu_ofKernel (s : Kernel) (ncpu : ℕ) : (ofKernel s ncpu).ncpu = min ncpu 256 := by
  have hpossible : (ofKernel s ncpu).numPossibleCpus = ncpu := rfl
  rw [MetricsIn.ncpu, hpossible]
  split_ifs <;> omega

theorem perCpu_ofKernel (s : Kernel) (ncpu : ℕ) (a : Fin numApps) : (ofKernel s ncpu).perCpu a =
    (List.range (min ncpu 256)).map fun cpu => s.appCounters cpu a := by
  rw [perCpu, ncpu_ofKernel]
  rfl

variable {i : MetricsIn} {s : Kernel}

/-- A loop that adds up is a sum. -/
theorem foldl_add_eq (get : ObsAppCnt → UInt64) (x : UInt64) (l : List ObsAppCnt) :
    l.foldl (fun sum cnt => sum + get cnt) x = x + (l.map get).sum := by
  induction l using List.reverseRecOn with
  | nil => exact (add_zero _).symm
  | append_singleton l cnt ih =>
    rw [List.foldl_concat, ih, List.map_append, List.sum_append, List.map_singleton,
      List.sum_singleton, add_assoc]

theorem merged_eq (i : MetricsIn) (c : Fin numApps → UInt64) (get : ObsAppCnt → UInt64)
    (a : Fin numApps) : i.merged c get a = c a + ((i.perCpu a).map get).sum :=
  foldl_add_eq get (c a) (i.perCpu a)

theorem fastpath_eq (i : MetricsIn) (get : ObsAppCnt → UInt64) :
    i.fastpath get = ∑ a, ((i.perCpu a).map get).sum := by
  rw [fastpath, foldl_add_eq, zero_add, List.map_flatMap, List.flatMap_def, List.sum_flatten,
    List.map_map, Fin.sum_univ_def]
  rfl

/-- A merged counter that is not zero is not zero in the engine or on one of the CPUs. -/
theorem exists_of_merged_ne_zero {c : Fin numApps → UInt64} {get : ObsAppCnt → UInt64}
    {a : Fin numApps} (h : i.merged c get a ≠ 0) : c a ≠ 0 ∨ ∃ cnt ∈ i.perCpu a, get cnt ≠ 0 := by
  by_cases hcpu : ∃ cnt ∈ i.perCpu a, get cnt ≠ 0
  · exact .inr hcpu
  · refine .inl fun hzero => h ?_
    push Not at hcpu
    rw [merged_eq, hzero, zero_add]
    exact List.sum_eq_zero (List.forall_mem_map.mpr hcpu)

/-- The counters of an application are read from the CPUs, or there are none. -/
theorem perCpu_cases (hi : i.ReadsFrom s) (a : Fin numApps) :
    i.perCpu a = [] ∨ i.perCpu a = (List.range i.ncpu).map fun cpu => s.appCounters cpu a := by
  rw [perCpu]
  split
  case isFalse => exact .inl rfl
  case isTrue =>
    cases hlookup : i.lookup a with
    | none => exact .inl rfl
    | some c => exact .inr (List.map_congr_left fun cpu _ => hi a c hlookup cpu)

theorem exists_of_mem_perCpu (hi : i.ReadsFrom s) {a : Fin numApps} {cnt : ObsAppCnt}
    (h : cnt ∈ i.perCpu a) : ∃ cpu, cnt = s.appCounters cpu a := by
  rcases perCpu_cases hi a with hnil | heq
  · rw [hnil] at h
    cases h
  · rw [heq] at h
    obtain ⟨cpu, -, rfl⟩ := List.mem_map.mp h
    exact ⟨cpu, rfl⟩

/-- **Merged counters.** A merged counter shows no more than the counter of the engine and those
of the CPUs that are read. -/
theorem toNat_merged_le (hi : i.ReadsFrom s) (c : Fin numApps → UInt64)
    (get : ObsAppCnt → UInt64) (a : Fin numApps) : (i.merged c get a).toNat ≤
      (c a).toNat + ∑ cpu ∈ Finset.range i.ncpu, (get (s.appCounters cpu a)).toNat := by
  have hsum : ((i.perCpu a).map get).sum.toNat ≤
      ∑ cpu ∈ Finset.range i.ncpu, (get (s.appCounters cpu a)).toNat := by
    rcases perCpu_cases hi a with hnil | heq
    · rw [hnil]
      exact Nat.zero_le _
    · have hle := Ledger.toNat_sum_le ((i.perCpu a).map get : List UInt64)
      rw [Multiset.sum_coe, Multiset.map_coe, Multiset.sum_coe, heq, List.map_map, List.map_map]
        at hle
      rw [heq, List.map_map, Finset.sum_eq_multiset_sum]
      exact hle
  rw [merged_eq, UInt64.toNat_add]
  exact (Nat.mod_le _ _).trans (Nat.add_le_add_left hsum _)

end NdpiObserve.MetricsIn
