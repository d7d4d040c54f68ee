import NdpiObserve.Library.Statistics
import NdpiObserve.Daemon.CallEffects

/-!
# The features of a flow

The features of a flow are accumulated packet by packet, with a special first packet and a start
value for the smallest gap, and two separate blocks turn the accumulators into statistics: the
input of the model and the row of the feature dump. Both are the statistics of the packets with
captured payload that the flow has had.

## Main definitions

* `MlSample`, `samplesOf`: what is accumulated of a packet, and the samples of a flow.
* `FlowEntry.Accumulated`: the accumulators of an entry are those of the samples.
* `NdpiMlFeatures.Describes`: the features are the statistics of the samples.

## Main results

* `FlowEntry.Accumulated.concat`: one more packet.
* `FlowEntry.Accumulated.mlFeatures`, `FlowEntry.Accumulated.dumpFeatureRow`: the two readers.
* `EngineRun.features_run`: the features of a flow in a run.
-/

namespace NdpiObserve

open Machine Statistics

/-! ### Samples -/

/-- What is accumulated of a packet: its length, which is cut to 16 bits, and its time. -/
structure MlSample where
  len : ℕ
  time : ℚ
deriving DecidableEq

def FlowEvent.sample (evt : FlowEvent) (time : ℚ) : MlSample where
  len := min evt.pktLen.toNat 65535
  time := time

/-- The lengths of the packets. -/
def lens (l : List MlSample) : List ℚ := l.map fun x => (x.len : ℚ)

/-- The times of the packets. -/
def times (l : List MlSample) : List ℚ := l.map MlSample.time

/-- The accumulators of the entry are those of the samples. -/
structure FlowEntry.Accumulated (f : FlowEntry) (l : List MlSample) : Prop where
  nPkts : f.mlNPkts.toNat = l.length
  pktSum : f.mlPktSum = (lens l).sum
  pktSq : f.mlPktSq = ((lens l).map fun x => x ^ 2).sum
  iatSum : f.mlIatSum = (gaps (times l)).sum
  iatSq : f.mlIatSq = ((gaps (times l)).map fun x => x ^ 2).sum
  pktMin : l ≠ [] → IsLeast {x | x ∈ lens l} f.mlPktMin.toNat
  pktMax : l ≠ [] → IsGreatest {x | x ∈ lens l} f.mlPktMax.toNat
  iatMin : l ≠ [] → IsLeast {x | x ∈ 10 ^ 30 :: gaps (times l)} f.mlIatMin
  iatMax : l ≠ [] → IsGreatest {x | x ∈ 0 :: gaps (times l)} f.mlIatMax
  first : l ≠ [] → (lens l).head? = some (f.mlFirstPkt.toNat : ℚ)
  last : l ≠ [] → (lens l).getLast? = some (f.mlLastPkt.toNat : ℚ)
  lastTime : l ≠ [] → (times l).getLast? = some f.mlLastPktTime

theorem accumulated_fresh (k : FlowKey) (t : ℤ) : (FlowTable.fresh k t).Accumulated [] where
  nPkts := rfl
  pktSum := rfl
  pktSq := rfl
  iatSum := rfl
  iatSq := rfl
  pktMin h := absurd rfl h
  pktMax h := absurd rfl h
  iatMin h := absurd rfl h
  iatMax h := absurd rfl h
  first h := absurd rfl h
  last h := absurd rfl h
  lastTime h := absurd rfl h

/-- The accumulators are part of what is tracked of an entry. -/
theorem FlowEntry.Accumulated.of_tracked {f f' : FlowEntry} {l : List MlSample}
    (h : f.Accumulated l) (heq : f.tracked = f'.tracked) : f'.Accumulated l := by
  have hview := congrArg (fun g : FlowEntry => (g.mlNPkts, g.mlPktSum, g.mlPktSq, g.mlIatSum,
    g.mlIatSq, g.mlPktMin, g.mlPktMax, g.mlIatMin, g.mlIatMax, g.mlFirstPkt, g.mlLastPkt,
    g.mlLastPktTime)) heq
  simp only [FlowEntry.tracked, Prod.mk.injEq] at hview
  obtain ⟨h₁, h₂, h₃, h₄, h₅, h₆, h₇, h₈, h₉, h₁₀, h₁₁, h₁₂⟩ := hview
  obtain ⟨k₁, k₂, k₃, k₄, k₅, k₆, k₇, k₈, k₉, k₁₀, k₁₁, k₁₂⟩ := h
  rw [h₁] at k₁
  rw [h₂] at k₂
  rw [h₃] at k₃
  rw [h₄] at k₄
  rw [h₅] at k₅
  rw [h₆] at k₆
  rw [h₇] at k₇
  rw [h₈] at k₈
  rw [h₉] at k₉
  rw [h₁₀] at k₁₀
  rw [h₁₁] at k₁₁
  rw [h₁₂] at k₁₂
  exact ⟨k₁, k₂, k₃, k₄, k₅, k₆, k₇, k₈, k₉, k₁₀, k₁₁, k₁₂⟩

/-! ### One more packet -/

/-- The length of a packet in the accumulators. -/
theorem toNat_clampLen (x : UInt32) :
    (if x > 0xFFFF then (0xFFFF : UInt16) else x.toUInt16).toNat = min x.toNat 65535 := by
  have hmax : (0xFFFF : UInt32).toNat = 65535 := rfl
  split
  case isTrue hlong =>
    rw [gt_iff_lt, UInt32.lt_iff_toNat_lt, hmax] at hlong
    have hlit : (0xFFFF : UInt16).toNat = 65535 := rfl
    omega
  case isFalse hshort =>
    rw [gt_iff_lt, UInt32.lt_iff_toNat_lt, hmax] at hshort
    rw [UInt32.toNat_toUInt16]
    omega

theorem toNat_ite_lt (x y m m' : UInt16) :
    (((if x < y then m else m').toNat : ℕ) : ℚ) =
      if (x.toNat : ℚ) < y.toNat then (m.toNat : ℚ) else m'.toNat := by
  simp only [Nat.cast_lt, UInt16.lt_iff_toNat_lt]
  split <;> rfl

/-- **One more packet.** The accumulators after a packet are those of its sample besides the
others. -/
theorem FlowEntry.Accumulated.concat {f : FlowEntry} {l : List MlSample} (h : f.Accumulated l)
    (hlen : l.length < 255) (evt : FlowEvent) :
    (mlAccumulate evt f).Accumulated (l ++ [evt.sample f.lastSeen]) := by
  have hn : (f.mlNPkts + 1).toNat = l.length + 1 := by
    rw [UInt8.toNat_add, UInt8.toNat_one, h.nPkts]
    omega
  have hclamp := toNat_clampLen evt.pktLen
  dsimp only [mlAccumulate]
  generalize (if evt.pktLen > 0xFFFF then (0xFFFF : UInt16) else evt.pktLen.toUInt16) = p at hclamp
  have hx : evt.sample f.lastSeen = ⟨p.toNat, f.lastSeen⟩ := by rw [hclamp, FlowEvent.sample]
  rw [hx]
  have hlens : lens (l ++ [⟨p.toNat, f.lastSeen⟩]) = lens l ++ [(p.toNat : ℚ)] := by simp [lens]
  have htimes : times (l ++ [⟨p.toNat, f.lastSeen⟩]) = times l ++ [f.lastSeen] := by simp [times]
  have hsum : f.mlPktSum + (p.toNat : ℚ) = (lens l ++ [(p.toNat : ℚ)]).sum := by
    rw [List.sum_append, List.sum_singleton, h.pktSum]
  have hsq : f.mlPktSq + (p.toNat : ℚ) * p.toNat =
      ((lens l ++ [(p.toNat : ℚ)]).map fun x => x ^ 2).sum := by
    rw [List.map_append, List.sum_append, List.map_singleton, List.sum_singleton, h.pktSq, sq]
  cases l using List.reverseRecOn with
  | nil =>
    have hzero : f.mlNPkts = 0 := UInt8.toNat_inj.mp h.nPkts
    rw [if_pos hzero]
    refine ⟨hn, hlens ▸ hsum, hlens ▸ hsq, h.iatSum, h.iatSq, fun _ => ?_, fun _ => ?_,
      fun _ => isLeast_singleton _, fun _ => isGreatest_singleton _, fun _ => rfl, fun _ => rfl,
      fun _ => rfl⟩
    · dsimp only
      rw [ite_self]
      exact isLeast_singleton _
    · dsimp only
      rw [ite_self]
      exact isGreatest_singleton _
  | append_singleton l x _ =>
    have hne : l ++ [x] ≠ [] := List.append_ne_nil_of_right_ne_nil l (List.cons_ne_nil x [])
    have hpos : f.mlNPkts ≠ 0 := by
      intro hzero
      have hnPkts := h.nPkts
      rw [hzero] at hnPkts
      simp at hnPkts
    have hlast : f.mlLastPktTime = x.time := by
      have hlast := h.lastTime hne
      rw [times, List.map_append, List.map_singleton, List.getLast?_concat] at hlast
      exact (Option.some.inj hlast).symm
    have hgaps : gaps (times (l ++ [x]) ++ [f.lastSeen]) =
        gaps (times (l ++ [x])) ++ [f.lastSeen - f.mlLastPktTime] := by
      rw [times, List.map_append, List.map_singleton, gaps_concat, hlast]
    rw [if_neg hpos]
    refine ⟨?_, hlens ▸ hsum, hlens ▸ hsq, ?_, ?_, fun _ => ?_, fun _ => ?_, fun _ => ?_,
      fun _ => ?_, fun _ => ?_, fun _ => ?_, fun _ => ?_⟩
    · rw [List.length_append]
      exact hn
    · rw [htimes, hgaps, List.sum_append, List.sum_singleton, ← h.iatSum]
    · rw [htimes, hgaps, List.map_append, List.sum_append, List.map_singleton, List.sum_singleton,
        ← h.iatSq, sq]
    · have hmin := isLeast_concat (h.pktMin hne) (p.toNat : ℚ)
      rw [← toNat_ite_lt] at hmin
      rw [hlens]
      exact hmin
    · have hmax := isGreatest_concat (h.pktMax hne) (p.toNat : ℚ)
      rw [← toNat_ite_lt] at hmax
      rw [hlens]
      exact hmax
    · rw [htimes, hgaps]
      exact isLeast_concat (h.iatMin hne) _
    · rw [htimes, hgaps]
      exact isGreatest_concat (h.iatMax hne) _
    · rw [hlens, List.head?_append_of_ne_nil _ (by simp [lens])]
      exact h.first hne
    · rw [hlens, List.getLast?_concat]
    · rw [htimes, List.getLast?_concat]

/-! ### The two readers -/

/-- The standard deviation as the code takes it of a variance. -/
def Env.std (env : Env) (v : ℚ) : ℚ := if v > 0 then env.sqrtf v else 0

/-- The variance of the lengths as the code computes it. -/
def FlowEntry.pktVar (f : FlowEntry) : ℚ :=
  let n : ℚ := f.mlNPkts.toNat
  f.mlPktSq / n - f.mlPktSum / n * (f.mlPktSum / n)

/-- The variance of the gaps as the code computes it. -/
def FlowEntry.iatVar (f : FlowEntry) : ℚ :=
  let n : ℚ := f.mlNPkts.toNat
  let iatN : ℚ := if n > 1 then n - 1 else 1
  if n > 2 then f.mlIatSq / iatN - f.mlIatSum / iatN * (f.mlIatSum / iatN) else 0

/-- The features are the statistics of the lengths and of the gaps. -/
structure NdpiMlFeatures.Describes (env : Env) (feat : NdpiMlFeatures) (l : List MlSample) :
    Prop where
  nPkts : feat.nPkts = l.length
  pktLenMean : feat.pktLenMean = mean (lens l)
  pktLenStd : feat.pktLenStd = env.std (variance (lens l))
  pktLenMin : IsLeast {x | x ∈ lens l} feat.pktLenMin
  pktLenMax : IsGreatest {x | x ∈ lens l} feat.pktLenMax
  pktLenTotal : feat.pktLenTotal = (lens l).sum
  firstPktLen : (lens l).head? = some feat.firstPktLen
  lastPktLen : (lens l).getLast? = some feat.lastPktLen
  /-- A single packet has no gap. -/
  single : l.length = 1 →
    feat.iatMeanS = 0 ∧ feat.iatStdS = 0 ∧ feat.iatMinS = 0 ∧ feat.iatMaxS = 0
  iatMean : feat.iatMeanS = mean (gaps (times l))
  iatStd : feat.iatStdS = env.std (variance (gaps (times l)))
  iatMin : 2 ≤ l.length → IsLeast {x | x ∈ gaps (times l)} feat.iatMinS
  iatMax : 2 ≤ l.length → IsGreatest {x | x ∈ gaps (times l)} feat.iatMaxS

namespace FlowEntry.Accumulated

variable {f : FlowEntry} {l : List MlSample}

theorem length_lens (l : List MlSample) : (lens l).length = l.length := List.length_map _

theorem length_gaps_times (l : List MlSample) : (gaps (times l)).length = l.length - 1 := by
  rw [length_gaps, times, List.length_map]

/-- The variance of the lengths is their variance. -/
theorem pktVar_eq (h : f.Accumulated l) (hl : l ≠ []) : f.pktVar = variance (lens l) := by
  have hlens : lens l ≠ [] := by simpa [lens] using hl
  rw [variance_eq hlens, mean, length_lens, sq, FlowEntry.pktVar, h.nPkts, h.pktSum, h.pktSq]

/-- The divisor of the gaps is their number. -/
theorem iatN_eq (h : f.Accumulated l) (hl : 2 ≤ l.length) :
    (if (f.mlNPkts.toNat : ℚ) > 1 then (f.mlNPkts.toNat : ℚ) - 1 else 1) =
      (gaps (times l)).length := by
  have hone : (1 : ℚ) < (l.length : ℚ) := by exact_mod_cast hl
  rw [h.nPkts, if_pos hone, length_gaps_times, Nat.cast_sub (by omega), Nat.cast_one]

/-- The variance of the gaps is their variance: it is zero as long as there is at most one. -/
theorem iatVar_eq (h : f.Accumulated l) : f.iatVar = variance (gaps (times l)) := by
  have hlen := length_gaps_times l
  dsimp only [FlowEntry.iatVar]
  split
  case isTrue hmany =>
    rw [h.nPkts] at hmany
    have htwo : 2 < l.length := by exact_mod_cast hmany
    have hgaps : gaps (times l) ≠ [] := List.ne_nil_of_length_pos (by omega)
    rw [h.iatN_eq htwo.le, variance_eq hgaps, mean, sq, h.iatSum, h.iatSq]
  case isFalse hfew =>
    rw [h.nPkts] at hfew
    have htwo : l.length ≤ 2 := by exact_mod_cast not_lt.mp hfew
    generalize gaps (times l) = g at hlen ⊢
    cases g with
    | nil => exact variance_nil.symm
    | cons x g =>
      obtain rfl : g = [] := by
        rw [List.length_cons] at hlen
        exact List.length_eq_zero_iff.mp (by omega)
      exact (variance_singleton x).symm

theorem pktVar_nonneg (h : f.Accumulated l) (hl : l ≠ []) : 0 ≤ f.pktVar :=
  (h.pktVar_eq hl).symm ▸ variance_nonneg (lens l)

theorem iatVar_nonneg (h : f.Accumulated l) : 0 ≤ f.iatVar :=
  h.iatVar_eq.symm ▸ variance_nonneg (gaps (times l))

/-- The gaps of a single packet. -/
theorem gaps_of_single (hone : l.length = 1) : gaps (times l) = [] := by
  rw [← List.length_eq_zero_iff, length_gaps_times, hone]

theorem iatMean_eq (h : f.Accumulated l) (hl : l ≠ []) (env : Env) (k : FlowKey) :
    (NdpiObserve.mlFeatures env k f).iatMeanS = mean (gaps (times l)) := by
  have hpos : 0 < l.length := List.length_pos_of_ne_nil hl
  dsimp only [NdpiObserve.mlFeatures]
  rcases Nat.lt_or_ge 1 l.length with htwo | hone
  · rw [h.iatN_eq htwo, mean, h.iatSum]
  · have hnil : gaps (times l) = [] := gaps_of_single (by omega)
    rw [h.iatSum, hnil, List.sum_nil, zero_div, mean, List.sum_nil, zero_div]

/-- **The input of the model.** It holds the statistics of the packets, as long as the packets
come in the order of their times and no gap reaches the start value of the smallest one. -/
theorem mlFeatures (h : f.Accumulated l) (hl : l ≠ [])
    (hgap : ∀ x ∈ gaps (times l), 0 ≤ x ∧ x < 10 ^ 30) (env : Env) (k : FlowKey) :
    (mlFeatures env k f).Describes env l := by
  have hmean := h.iatMean_eq hl env k
  have hstd : (NdpiObserve.mlFeatures env k f).iatStdS = env.std (variance (gaps (times l))) :=
    congrArg env.std h.iatVar_eq
  have hmany (htwo : 2 ≤ l.length) : gaps (times l) ≠ [] := by
    refine List.ne_nil_of_length_pos ?_
    rw [length_gaps_times]
    omega
  have hn (htwo : 2 ≤ l.length) : (f.mlNPkts.toNat : ℚ) > 1 := by
    rw [h.nPkts]
    exact_mod_cast htwo
  refine ⟨congrArg Nat.cast h.nPkts, ?_, congrArg env.std (h.pktVar_eq hl), h.pktMin hl,
    h.pktMax hl, h.pktSum, h.first hl, h.last hl, fun hone => ⟨?_, ?_, ?_, ?_⟩, hmean, hstd,
    fun htwo => ?_, fun htwo => ?_⟩
  · rw [mean, length_lens, ← h.pktSum, ← h.nPkts]
    rfl
  · rw [hmean, gaps_of_single hone, mean, List.sum_nil, zero_div]
  · rw [hstd, gaps_of_single hone, variance_nil]
    exact if_neg (lt_irrefl 0)
  · refine if_neg ?_
    rw [h.nPkts, hone]
    norm_num
  · have hmax := h.iatMax hl
    rw [gaps_of_single hone] at hmax
    exact List.mem_singleton.mp hmax.1
  · have hmin : (NdpiObserve.mlFeatures env k f).iatMinS = f.mlIatMin := if_pos (hn htwo)
    rw [hmin]
    exact isLeast_of_cons (h.iatMin hl) (hmany htwo) fun x hx => (hgap x hx).2
  · exact isGreatest_of_cons (h.iatMax hl) (hmany htwo) fun x hx => (hgap x hx).1

/-- **The row of the feature dump.** Its numbers are those of the model's input. -/
theorem dumpFeatureRow (h : f.Accumulated l) (hl : l ≠ [])
    (hgap : ∀ x ∈ gaps (times l), 0 ≤ x ∧ x < 10 ^ 30) (env : Env) (k : FlowKey) :
    (dumpFeatureRow env k f).Describes env l :=
  h.mlFeatures hl hgap env k

end FlowEntry.Accumulated

/-! ### Runs -/

/-- The operation is a packet of the flow `k` with captured payload. -/
def EngineOp.sample (k : FlowKey) : EngineOp → Option MlSample
  | .process evt _ a =>
    if evt.key = k ∧ evt.actualDataLen ≠ 0 then some (evt.sample a.timeSeen) else none
  | .age _ => none

/-- The samples of the flow `k`. -/
def samplesOf (k : FlowKey) (ops : List EngineOp) : List MlSample :=
  ops.filterMap (EngineOp.sample k)

theorem samplesOf_concat (k : FlowKey) (ops : List EngineOp) (op : EngineOp) :
    samplesOf k (ops ++ [op]) = samplesOf k ops ++ (op.sample k).toList := by
  rw [samplesOf, List.filterMap_append, samplesOf]
  cases h : op.sample k <;> simp [h]

/-- A packet with payload that does not find the flow decided is given to nDPI, or the flow is
given up for want of memory. -/
theorem FlowEntry.scans_exit {f : FlowEntry} {evt : FlowEvent} {a : Answers}
    (hopen : f.state.isTerminal = false) (hexit : f.exit evt a ≠ .allocFailed) :
    (f.exit evt a).scans = true ↔ evt.actualDataLen ≠ 0 := by
  rw [FlowEntry.exit] at hexit ⊢
  split_ifs at hexit ⊢ <;> simp_all [Exit.scans]

namespace Call

variable (env : Env) (evt : FlowEvent) (fd : ℤ) (a : Answers) (e : Engine) {f : FlowEntry}
  {l : List MlSample}

/-- The accumulators once the packet is given to nDPI. -/
theorem scanned_accumulated (h : f.Accumulated l) (hlen : l.length < 255) :
    (scanned evt a { engine := e, flow := f }).flow.Accumulated
      (l ++ [evt.sample a.timeSeen]) := by
  have hcounted : (f.countedBy evt a).Accumulated l := by
    obtain ⟨h₁, h₂, h₃, h₄, h₅, h₆, h₇, h₈, h₉, h₁₀, h₁₁, h₁₂⟩ := h
    exact ⟨h₁, h₂, h₃, h₄, h₅, h₆, h₇, h₈, h₉, h₁₀, h₁₁, h₁₂⟩
  refine (hcounted.concat hlen evt).of_tracked ?_
  rw [tracked_scanned, tracked_mlAccumulate]

/-- **The accumulators after a call.** -/
theorem process_accumulated (h : f.Accumulated l) (hlen : l.length < 255)
    (hopen : f.state.isTerminal = false) :
    (Call.process env evt fd a { engine := e, flow := f }).flow.Accumulated
      (if (f.exit evt a).scans then l ++ [evt.sample a.timeSeen] else l) := by
  have htracked := process_tracked env evt fd a { engine := e, flow := f }
  rw [if_neg (by simp [hopen])] at htracked
  split
  case isTrue hscans =>
    rw [if_pos hscans, ← tracked_scanned] at htracked
    exact (scanned_accumulated evt a e h hlen).of_tracked htracked.symm
  case isFalse hscans =>
    rw [if_neg hscans] at htracked
    refine FlowEntry.Accumulated.of_tracked ?_ htracked.symm
    obtain ⟨h₁, h₂, h₃, h₄, h₅, h₆, h₇, h₈, h₉, h₁₀, h₁₁, h₁₂⟩ := h
    exact ⟨h₁, h₂, h₃, h₄, h₅, h₆, h₇, h₈, h₉, h₁₀, h₁₁, h₁₂⟩

end Call

namespace EngineRun

variable (env : Env) {w : EngineRun} {k : FlowKey} {l : List MlSample}

/-- The entry of the flow has the accumulators of the samples for as long as it is open. -/
def Accumulates (w : EngineRun) (k : FlowKey) (l : List MlSample) : Prop :=
  (w.entry k = none → l = []) ∧
    ∀ f, w.entry k = some f → f.state.isTerminal = false → f.Accumulated l

/-- The entry that a call obtains has the accumulators of the samples so far. -/
theorem Accumulates.obtain (h : w.Accumulates k l) {evt : FlowEvent} {a : Answers}
    (hk : evt.key = k) {f : FlowEntry} (ho : w.engine.obtain evt a = some f)
    (hopen : f.state.isTerminal = false) : f.Accumulated l := by
  subst hk
  rcases entered_cases ho with ⟨hl, -⟩ | ⟨rfl, hl, -⟩
  · exact h.2 f hl hopen
  · rw [h.1 hl]
    exact accumulated_fresh _ _

/-- An open entry has no more than seven samples. -/
theorem length_lt_of_budgeted {f : FlowEntry} (hf : Budgeted f)
    (hopen : f.state.isTerminal = false) (h : f.Accumulated l) : l.length < 8 := by
  have hlt := hf.metered.pktCount_lt hopen
  have hle := hf.mlNPkts_le
  rw [h.nPkts] at hle
  omega

theorem budgeted_obtain (hw : w.Sound) (hP : ∀ f ∈ w.flows, Budgeted f) {evt : FlowEvent}
    {a : Answers} {f : FlowEntry} (ho : w.engine.obtain evt a = some f) : Budgeted f := by
  rcases entered_cases ho with ⟨hl, -⟩ | ⟨rfl, -, -⟩
  · exact hP f (hw.mem_flows hl)
  · exact budgeted_fresh _ _

/-- **One step.** A step that leaves the flow an entry adds its sample. -/
theorem Accumulates.step (h : w.Accumulates k l) (hw : w.Sound) (hP : ∀ f ∈ w.flows, Budgeted f)
    {op : EngineOp} (hkeep : ((w.step env op).entry k).isSome = true) :
    (w.step env op).Accumulates k (l ++ (op.sample k).toList) := by
  refine ⟨fun hnone => by simp [hnone] at hkeep, fun f' hf' hopen' => ?_⟩
  cases op with
  | age now =>
    have hage : (w.step env (.age now)).entry k = (w.entry k).filter fun f => !f.isIdle now :=
      hw.lookup_step_age env now k
    rw [hage] at hf'
    rw [EngineOp.sample, Option.toList_none, List.append_nil]
    exact h.2 f' (Option.filter_eq_some_iff.mp hf').1 hopen'
  | process evt fd a =>
    cases ho : w.engine.obtain evt a with
    | none =>
      have hsame : (w.step env (.process evt fd a)).entry k = w.entry k :=
        lookup_step_process_of_none env fd ho k
      have hne : evt.key ≠ k := by
        rintro rfl
        have hl : w.entry evt.key = none := (w.engine.obtain_eq_none_iff.mp ho).1
        rw [hsame, hl] at hkeep
        cases hkeep
      rw [EngineOp.sample, if_neg (fun hk => hne hk.1), Option.toList_none, List.append_nil]
      rw [hsame] at hf'
      exact h.2 f' hf' hopen'
    | some f =>
      have hlookup : (w.step env (.process evt fd a)).entry k =
          if evt.key = k then some (w.body env evt fd a f).flow else w.entry k :=
        hw.lookup_step_process env fd ho k
      rw [hlookup] at hf'
      by_cases hk : evt.key = k
      case neg =>
        rw [EngineOp.sample, if_neg (fun h => hk h.1), Option.toList_none, List.append_nil]
        rw [if_neg hk] at hf'
        exact h.2 f' hf' hopen'
      case pos =>
        rw [if_pos hk] at hf'
        obtain rfl := Option.some.inj hf'
        -- an entry that is open after the call was open before it, and was not given up
        have hstate := Call.process_isTerminal env evt fd a (w.engine.bodyStart evt a) (f := f)
        rw [body] at hopen'
        rw [hopen', eq_comm, Bool.or_eq_false_iff] at hstate
        obtain ⟨hopen, hdecides⟩ := hstate
        have hexit : f.exit evt a ≠ .allocFailed := fun hfail => by
          rw [hfail] at hdecides
          cases hdecides
        have hacc := h.obtain hk ho hopen
        have hlen := length_lt_of_budgeted (budgeted_obtain hw hP ho) hopen hacc
        have hnext := Call.process_accumulated env evt fd a (w.engine.bodyStart evt a) hacc
          (by omega) hopen
        rw [if_congr (f.scans_exit hopen hexit) rfl rfl] at hnext
        rw [EngineOp.sample]
        by_cases hdata : evt.actualDataLen = 0
        · rw [if_neg (by simp [hdata]), Option.toList_none, List.append_nil]
          rw [if_neg (by simp [hdata])] at hnext
          exact hnext
        · rw [if_pos ⟨hk, hdata⟩, Option.toList_some]
          rw [if_pos hdata] at hnext
          exact hnext

/-- The samples of an open entry since its creation. -/
theorem accumulates_run (iface : Bytes) (ml dump : Bool) (ops ops' : List EngineOp)
    (k : FlowKey) :
    let w := run (step env) (start iface ml dump) ops
    w.entry k = none → w.Keeps env k ops' →
      (run (step env) w ops').Accumulates k (samplesOf k ops') := by
  intro w hnone hkeeps
  induction ops' using List.reverseRecOn with
  | nil => exact ⟨fun _ => rfl, fun f hf => by simp [hnone] at hf⟩
  | append_singleton ops' op ih =>
    obtain ⟨hkeeps, hlast⟩ := along_append.mp hkeeps
    have hsound := sound_run env iface ml dump (ops ++ ops')
    have hbudgeted := budgeted_run env iface ml dump (ops ++ ops')
    rw [run_append] at hsound hbudgeted
    rw [run_concat, samplesOf_concat]
    exact (ih hkeeps).step env hsound hbudgeted hlast.1

/-- Every flow of every run has the accumulators of some packets. -/
theorem exists_accumulated_run (iface : Bytes) (ml dump : Bool) (ops : List EngineOp) :
    ∀ f ∈ (run (step env) (start iface ml dump) ops).flows, ∃ l, f.Accumulated l := by
  have hP : ∀ f ∈ (run (step env) (start iface ml dump) ops).flows,
      Budgeted f ∧ ∃ l, f.Accumulated l := by
    refine forall_flows_run (fun k t => ⟨budgeted_fresh k t, [], accumulated_fresh k t⟩) ?_
      iface ml dump ops
    rintro evt fd a e f ⟨hf, l, hacc⟩
    refine ⟨Call.process_budgeted env evt fd a e hf, ?_⟩
    cases hterm : f.state.isTerminal with
    | true =>
      rw [Call.process_of_isTerminal env evt fd a (c := { engine := e, flow := f }) hterm]
      obtain ⟨h₁, h₂, h₃, h₄, h₅, h₆, h₇, h₈, h₉, h₁₀, h₁₁, h₁₂⟩ := hacc
      exact ⟨l, h₁, h₂, h₃, h₄, h₅, h₆, h₇, h₈, h₉, h₁₀, h₁₁, h₁₂⟩
    | false =>
      have hlen := length_lt_of_budgeted hf hterm hacc
      exact ⟨_, Call.process_accumulated env evt fd a e hacc (by omega) hterm⟩
  exact fun f hf => (hP f hf).2

/-- The variances that the code computes are not negative. -/
theorem var_nonneg_run (iface : Bytes) (ml dump : Bool) (ops : List EngineOp) :
    ∀ f ∈ (run (step env) (start iface ml dump) ops).flows, 0 ≤ f.pktVar ∧ 0 ≤ f.iatVar := by
  intro f hf
  obtain ⟨l, h⟩ := exists_accumulated_run env iface ml dump ops f hf
  refine ⟨?_, h.iatVar_nonneg⟩
  cases l with
  | nil =>
    rw [FlowEntry.pktVar, h.nPkts, h.pktSq, h.pktSum]
    simp [lens]
  | cons x l => exact h.pktVar_nonneg (List.cons_ne_nil x l)

/-- **The features of a flow.** Whatever the run, and for whatever packets the flow has had since
its entry was created, what a call on it gives to the model and what it adds to the feature dump
are the statistics of the packets with payload up to that call, if they come in the order of
their times and no gap is as long as `10 ^ 30` seconds. No variance is negative. -/
theorem features_run (iface : Bytes) (ml dump : Bool) (ops ops' : List EngineOp) (k : FlowKey)
    (evt : FlowEvent) (fd : ℤ) (a : Answers) :
    let w := run (step env) (start iface ml dump) ops
    let w' := run (step env) w ops'
    let r := ndpiEngineProcess env w'.engine evt fd a
    let samples := samplesOf k (ops' ++ [.process evt fd a])
    w.entry k = none → w.Keeps env k ops' → evt.key = k →
      (∀ x ∈ gaps (times samples), 0 ≤ x ∧ x < 10 ^ 30) →
      (∀ feat, .mlClassify feat ∈ r.2 → feat.Describes env samples) ∧
      (∃ rows, r.1.dumpFeatures = w'.engine.dumpFeatures.map (· ++ rows) ∧
        ∀ row ∈ rows, row.features.Describes env samples) ∧
      ∀ f ∈ (w'.step env (.process evt fd a)).flows, 0 ≤ f.pktVar ∧ 0 ≤ f.iatVar := by
  intro w w' r samples hnone hkeeps hk hgap
  have hsound : w'.Sound := by
    have h := sound_run env iface ml dump (ops ++ ops')
    rwa [run_append] at h
  have hbudgeted : ∀ f ∈ w'.flows, Budgeted f := by
    have h := budgeted_run env iface ml dump (ops ++ ops')
    rwa [run_append] at h
  have hacc : w'.Accumulates k (samplesOf k ops') :=
    accumulates_run env iface ml dump ops ops' k hnone hkeeps
  have hvar := var_nonneg_run env iface ml dump (ops ++ ops' ++ [.process evt fd a])
  rw [run_concat, run_append] at hvar
  have hnorows : w'.engine.dumpFeatures = w'.engine.dumpFeatures.map (· ++ []) := by
    simp
  rw [← and_assoc]
  refine ⟨?_, hvar⟩
  cases ho : w'.engine.obtain evt a with
  | none =>
    have hr : r = _ := ndpiEngineProcess_of_none env fd ho
    obtain ⟨cache, hdns⟩ := w'.engine.exists_observeDns_eq evt a
    rw [hr, hdns]
    exact ⟨fun feat hfeat => absurd hfeat List.not_mem_nil, [], hnorows, by simp⟩
  | some f =>
    have hr : r = _ := ndpiEngineProcess_of_some env fd ho
    rw [hr]
    dsimp only
    have hstart : (w'.engine.bodyStart evt a).dumpFeatures = w'.engine.dumpFeatures := by
      obtain ⟨cache, hdns⟩ := w'.engine.exists_observeDns_eq evt a
      rw [Engine.bodyStart, hdns]
    have hdump := Call.process_dumpFeatures env evt fd a
      { engine := w'.engine.bodyStart evt a, flow := f }
    rw [hstart] at hdump
    -- a decided flow is not given to the model
    cases hterm : f.state.isTerminal with
    | true =>
      have hexit : f.exit evt a = .cached := Call.exit_eq_cached_iff.mpr hterm
      refine ⟨fun feat hfeat => ?_, [], ?_, by simp⟩
      · have hlast := ((Call.mem_mlClassify_iff env evt fd a _ f feat).mp hfeat).1
        rw [hexit] at hlast
        cases hlast
      · rw [hdump, hexit]
        exact hnorows
    | false =>
      have hf := hacc.obtain hk ho hterm
      have hlen := length_lt_of_budgeted (budgeted_obtain hsound hbudgeted ho) hterm hf
      have hsamples (hscans : (f.exit evt a).scans = true) :
          samples = samplesOf k ops' ++ [evt.sample a.timeSeen] := by
        have hdata : evt.actualDataLen ≠ 0 := by
          refine (f.scans_exit hterm fun hfail => ?_).mp hscans
          rw [hfail] at hscans
          cases hscans
        rw [show samples = _ from samplesOf_concat k ops' _, EngineOp.sample, if_pos ⟨hk, hdata⟩]
        rfl
      refine ⟨fun feat hfeat => ?_, ?_⟩
      · obtain ⟨hexit, -, -, rfl⟩ := (Call.mem_mlClassify_iff env evt fd a _ f feat).mp hfeat
        have hscanned := Call.scanned_accumulated evt a (w'.engine.bodyStart evt a) hf (by omega)
        rw [← hsamples (by rw [hexit]; rfl)] at hscanned
        exact hscanned.mlFeatures (by simp [hsamples (by rw [hexit]; rfl)]) hgap env _
      · cases htail : (f.exit evt a).hasTail with
        | false =>
          rw [htail, if_neg Bool.false_ne_true] at hdump
          exact ⟨[], hdump.trans hnorows, by simp⟩
        | true =>
          have hscans : (f.exit evt a).scans = true := by
            revert htail
            cases f.exit evt a <;> simp [Exit.hasTail, Exit.scans]
          have hnext := Call.process_accumulated env evt fd a (w'.engine.bodyStart evt a) hf
            (by omega) hterm
          rw [if_pos hscans, ← hsamples hscans] at hnext
          rw [htail, if_pos rfl] at hdump
          refine ⟨_, hdump, fun row hrow => ?_⟩
          rw [Call.newRows] at hrow
          split at hrow
          · rw [List.mem_singleton.mp hrow]
            exact hnext.dumpFeatureRow (by simp [hsamples hscans]) hgap env _
          · cases hrow

/-- The second packet of a flow, two seconds after the first one, which nDPI recognises. -/
theorem features_run_two :
    let ops : List EngineOp := [.process udpEvent (-1) { timeSeen := 5 }]
    let w := run (step default) (start [] true true) ops
    let r := ndpiEngineProcess default w.engine udpEvent (-1)
      { timeSeen := 7, detection := { app := 7 } }
    ∃ rows, r.1.dumpFeatures = w.engine.dumpFeatures.map (· ++ rows) ∧
      ∀ row ∈ rows, row.features.Describes default [⟨32, 5⟩, ⟨32, 7⟩] := by
  intro ops w r
  have hnone : (start [] true true).entry udpEvent.key = none := rfl
  have hobtain : (start [] true true).engine.obtain udpEvent { timeSeen := 5 } =
      some (FlowTable.fresh udpEvent.key 0) := by
    rw [Engine.obtain, FlowTable.getOrCreate_of_none hnone]
    rfl
  have hkeeps : (start [] true true).Keeps default udpEvent.key ops := by
    have hlookup := (sound_start [] true true).lookup_step_process default (-1) hobtain
      udpEvent.key
    rw [if_pos rfl] at hlookup
    exact ⟨Option.isSome_iff_exists.mpr ⟨_, hlookup⟩, trivial⟩
  have hsamples : samplesOf udpEvent.key (ops ++ [.process udpEvent (-1)
      { timeSeen := 7, detection := { app := 7 } }]) = [⟨32, 5⟩, ⟨32, 7⟩] := by
    decide
  have h := features_run default [] true true [] ops udpEvent.key udpEvent (-1)
    { timeSeen := 7, detection := { app := 7 } } hnone hkeeps rfl
  rw [hsamples] at h
  refine (h ?_).2.1
  norm_num [times, gaps]

end EngineRun

end NdpiObserve
