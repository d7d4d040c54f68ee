import NdpiObserve.Daemon.FlowMachine
import NdpiObserve.Pipeline.MainLoop

/-!
# Active flows and the sweep

A flow has two times of last activity. The kernel stores that of the last packet, the daemon that
of the last event, and the sweep looks at the daemon's. Packets that the kernel counts, finds no
room for in the ring buffer, or has submitted but the main loop not yet delivered, are unknown to
the daemon, so the sweep also removes flows that are active.

## Main definitions

* `Pipeline.SeenRecently`, `Pipeline.HeardRecently`: the two times, compared with the sweep's.
* `Pipeline.KeepsActive`, `Pipeline.HearsActive`: what is wanted of a sweep, and what it takes.
* `Pipeline.Attended`: the invariant that relates entries and events.

## Main results

* `Pipeline.Attended.isSome_swept_iff`: the flows that a sweep leaves in the table.
* `Pipeline.active_flow_kept_iff`: the runs whose sweeps keep the active flows.
* `Pipeline.fastPath_flow_expires`: a flow that is swept away between its packets.
-/

namespace NdpiObserve

open Machine

/-- The idle timeout of a flow. -/
def FlowKey.timeout (k : FlowKey) : ℚ := if k.proto = 6 then flowTcpIdleSec else flowUdpIdleSec

/-- Every call on an entry sets its time. -/
theorem Call.process_lastSeen (env : Env) (evt : FlowEvent) (fd : ℤ) (a : Answers) (c : Call) :
    (c.process env evt fd a).flow.lastSeen = a.timeSeen := by
  have htracked := congrArg FlowEntry.lastSeen (process_tracked env evt fd a c)
  have haccumulate (f : FlowEntry) : (mlAccumulate evt f).lastSeen = f.lastSeen := by
    dsimp only [mlAccumulate]
    split <;> rfl
  refine Eq.trans htracked ?_
  split_ifs
  · rfl
  · exact haccumulate _
  · rfl

/-- The time of a sweep. -/
def PipelineOp.sweepTime : PipelineOp → Option ℤ
  | .age now => some now
  | _ => none

namespace Pipeline

/-! ### Two times of last activity -/

/-- The kernel saw a packet of the flow at most the timeout before `now`. Its clock counts the
nanoseconds from the time `boot`. -/
def SeenRecently (boot : ℚ) (now : ℤ) (k : FlowKey) (w : Pipeline) : Prop :=
  ∃ fs ∈ w.kernelEntry k, now - (boot + fs.lastSeenNs.toNat / 10 ^ 9) ≤ k.timeout

/-- The daemon processed the last event of the flow at most the timeout before `now`. -/
def HeardRecently (now : ℤ) (k : FlowKey) (w : Pipeline) : Prop :=
  ∃ c ∈ (w.callsOf k).getLast?, now - (c.2.2.timeSeen : ℚ) ≤ k.timeout

variable (env : Env) (fd : ℤ) (boot : ℚ) {w : Pipeline} {k : FlowKey}

/-- A sweep leaves every flow in the table that the kernel saw recently and the daemon ever had
an entry for. -/
def KeepsActive (w : Pipeline) : PipelineOp → Prop
  | .age now => w.phase = .serving → ∀ k, SeenRecently boot now k w → w.callsOf k ≠ [] →
    ((w.next env fd (.age now)).daemonEntry k).isSome = true
  | _ => True

/-- At a sweep, the daemon heard recently of every flow that the kernel saw recently and the
daemon ever had an entry for. -/
def HearsActive (w : Pipeline) : PipelineOp → Prop
  | .age now => w.phase = .serving → ∀ k, SeenRecently boot now k w → w.callsOf k ≠ [] →
    HeardRecently now k w
  | _ => True

/-! ### Entries and events -/

/-- The entry of a flow has the time of its last event. A flow with events but no entry was
idle for too long by the time `t` of the last sweep. -/
structure Attended (t : ℤ) (w : Pipeline) : Prop where
  sound : w.daemon.Sound
  lastSeen : ∀ k, ∀ f ∈ w.daemonEntry k, ∃ c ∈ (w.callsOf k).getLast?, f.lastSeen = c.2.2.timeSeen
  absent : ∀ k, w.daemonEntry k = none → ∀ c ∈ (w.callsOf k).getLast?,
    k.timeout < t - (c.2.2.timeSeen : ℚ)

theorem attended_start (iface : Bytes) (ml dump : Bool) (t : ℤ) :
    (start iface ml dump).Attended t := by
  have hnone (k : FlowKey) : (start iface ml dump).daemonEntry k = none := rfl
  have hcalls (k : FlowKey) : (start iface ml dump).callsOf k = [] := rfl
  refine ⟨EngineRun.sound_start iface ml dump, fun k => ?_, fun k _ => ?_⟩
  · rw [hnone]
    rintro f ⟨⟩
  · rw [hcalls]
    rintro c ⟨⟩

namespace Attended

variable {t : ℤ}

/-- The table as it is after a sweep. -/
theorem daemonEntry_age (h : w.Attended t) {now : ℤ} (hphase : w.phase = .serving) (k : FlowKey) :
    (w.next env fd (.age now)).daemonEntry k =
      (w.daemonEntry k).filter fun f => !f.isIdle now := by
  have hlookup := h.sound.lookup_step_age env now k
  rw [next, step, if_pos hphase]
  exact hlookup

theorem timeout_eq (h : w.Attended t) {f : FlowEntry} (hf : w.daemonEntry k = some f) :
    f.timeout = k.timeout := by
  rw [FlowEntry.timeout, h.sound.valid.key_lookup hf]
  rfl

/-- **Sweeps.** The flows that a sweep leaves in the table are those the daemon heard of
recently. -/
theorem isSome_swept_iff (h : w.Attended t) {now : ℤ} (hle : t ≤ now)
    (hphase : w.phase = .serving) (k : FlowKey) (hcalls : w.callsOf k ≠ []) :
    ((w.next env fd (.age now)).daemonEntry k).isSome = true ↔ HeardRecently now k w := by
  rw [h.daemonEntry_age env fd hphase, HeardRecently]
  cases hf : w.daemonEntry k with
  | none =>
    have hlast := List.getLast?_eq_some_getLast hcalls
    have habsent := h.absent k hf _ hlast
    have hle' : (t : ℚ) ≤ now := by exact_mod_cast hle
    rw [hlast]
    simp only [Option.filter_none, Option.isSome_none, Bool.false_eq_true, Option.mem_some_iff,
      exists_eq_left', false_iff, not_le]
    linarith
  | some f =>
    obtain ⟨c, hc, hseen⟩ := h.lastSeen k f hf
    rw [Option.mem_def.mp hc]
    simp [Option.filter_some, FlowEntry.isIdle, h.timeout_eq hf, hseen]

/-- A step that is not a sweep leaves the time of the last sweep. -/
theorem step_of_ne_age (h : w.Attended t) {op : PipelineOp} (hop : op.sweepTime = none) :
    (w.next env fd op).Attended t := by
  have hsound := step_sound env fd h.sound op
  cases op with
  | packet p => exact ⟨hsound, h.lastSeen, h.absent⟩
  | drained =>
    rcases step_drained_cases env fd w with heq | ⟨-, heq⟩
    · rwa [heq]
    · rw [heq]
      exact ⟨h.sound, h.lastSeen, h.absent⟩
  | age now => cases hop
  | loop => exact ⟨hsound, h.lastSeen, h.absent⟩
  | deliver a =>
    have hflow := step_deliver_flow env fd h.sound a
    refine ⟨hsound, fun k => ?_, fun k => ?_⟩
    · rcases hflow k with hsame |
        ⟨evt, -, -, -, -, ⟨-, hnone, -, -⟩ | ⟨f, -, hentry, -, hcalls⟩⟩
      · rw [hsame.daemonEntry, hsame.callsOf]
        exact h.lastSeen k
      · rw [hnone]
        rintro f ⟨⟩
      · rw [hentry, hcalls, List.getLast?_concat]
        rintro _ ⟨⟩
        exact ⟨_, rfl, Call.process_lastSeen env evt fd a _⟩
    · rcases hflow k with hsame |
        ⟨evt, -, -, -, -, ⟨hnone, -, -, hcalls⟩ | ⟨f, -, hentry, -, -⟩⟩
      · rw [hsame.daemonEntry, hsame.callsOf]
        exact h.absent k
      · rw [hcalls]
        exact fun _ => h.absent k hnone
      · rw [hentry]
        rintro ⟨⟩

/-- A sweep that the main loop makes. -/
theorem step_age (h : w.Attended t) {now : ℤ} (hle : t ≤ now) :
    (w.next env fd (.age now)).Attended now := by
  have hle' : (t : ℚ) ≤ now := by exact_mod_cast hle
  have hsound := step_sound env fd h.sound (.age now)
  have hcalls (k : FlowKey) : (w.next env fd (.age now)).callsOf k = w.callsOf k := by
    rcases step_age_cases env fd w now with heq | ⟨-, heq⟩
    · rw [heq]
    · rw [heq, callsOf, callsOf, EngineRun.step_age]
  rcases step_age_cases env fd w now with heq | ⟨hphase, -⟩
  · rw [heq]
    refine ⟨h.sound, h.lastSeen, fun k hf c hc => ?_⟩
    have habsent := h.absent k hf c hc
    linarith
  · refine ⟨hsound, fun k f hf => ?_, fun k hf c hc => ?_⟩
    · rw [h.daemonEntry_age env fd hphase] at hf
      rw [hcalls]
      exact h.lastSeen k f (Option.filter_eq_some_iff.mp hf).1
    · have hne : w.callsOf k ≠ [] := by
        rw [hcalls] at hc
        rintro hnil
        rw [hnil] at hc
        cases hc
      have hheard := (h.isSome_swept_iff env fd hle hphase k hne).not.mp (by simp [hf])
      rw [hcalls] at hc
      by_contra hidle
      exact hheard ⟨c, hc, not_lt.mp hidle⟩

end Attended

/-! ### Runs -/

/-- **Active flows.** In a run whose sweeps do not go back in time, every sweep keeps the active
flows if and only if at every sweep the daemon heard recently of each of them. -/
theorem active_flow_kept_iff (iface : Bytes) (ml dump : Bool) (t : ℤ) (ops : List PipelineOp)
    (htime : (t :: ops.filterMap PipelineOp.sweepTime).Pairwise (· ≤ ·)) :
    Along (next env fd) (KeepsActive env fd boot) (start iface ml dump) ops ↔
      Along (next env fd) (HearsActive boot) (start iface ml dump) ops := by
  suffices hrun : ∀ w : Pipeline, w.Attended t →
      (Along (next env fd) (KeepsActive env fd boot) w ops ↔
        Along (next env fd) (HearsActive boot) w ops) from
    hrun _ (attended_start iface ml dump t)
  induction ops generalizing t with
  | nil => exact fun _ _ => Iff.rfl
  | cons op ops ih =>
    intro w h
    rw [along_cons, along_cons]
    cases hop : op.sweepTime with
    | none =>
      rw [List.filterMap_cons_none hop] at htime
      have hkeeps : KeepsActive env fd boot w op ↔ HearsActive boot w op := by
        cases op with
        | age now => cases hop
        | packet _ | deliver _ | drained | loop => exact Iff.rfl
      rw [hkeeps, ih t htime _ (h.step_of_ne_age env fd hop)]
    | some now =>
      rw [List.filterMap_cons_some hop, List.pairwise_cons] at htime
      obtain ⟨hle, htime⟩ := htime
      specialize hle now List.mem_cons_self
      obtain rfl : op = .age now := by
        cases op with
        | age _ => exact congrArg _ (Option.some.inj hop)
        | packet _ | deliver _ | drained | loop => cases hop
      have hkeeps : KeepsActive env fd boot w (.age now) ↔ HearsActive boot w (.age now) :=
        imp_congr_right fun hphase => forall_congr' fun k => imp_congr_right fun _ =>
          imp_congr_right fun hcalls => h.isSome_swept_iff env fd hle hphase k hcalls
      rw [hkeeps, ih now htime _ (h.step_age env fd hle)]

/-- A flow that nDPI knows, with a packet at 0, 20 and 40 seconds, and a sweep at 41 seconds. -/
def knownFlow : List PipelineOp :=
  [.packet udpPkt, .deliver { detection := { app := 5 } },
    .packet { udpPkt with ts := 20000000000 }, .packet { udpPkt with ts := 40000000000 },
    .drained, .age 41]

/-- The flow of `knownFlow` when every one of its packets is submitted: nDPI does not know it. -/
def unknownFlow : List PipelineOp :=
  [.packet udpPkt, .deliver {}, .packet { udpPkt with ts := 20000000000 },
    .deliver { timeSeen := 20 }, .drained, .age 41]

/-- The sweep keeps a flow whose packets all reach the daemon. -/
theorem active_flow_kept_unknown :
    Along (next default 3) (KeepsActive default 3 0) (start [] true false) unknownFlow := by
  refine (active_flow_kept_iff default 3 0 [] true false 0 unknownFlow (by decide)).mpr ?_
  refine ⟨trivial, trivial, trivial, trivial, trivial, fun _ k _ hcalls => ?_, trivial⟩
  generalize hw : (next _ _ _ _ : Pipeline) = w at hcalls ⊢
  have hkeys : w.daemon.calls.all (fun c => c.2.1.key = udpKey) = true := by
    rw [← hw]
    decide +kernel
  obtain ⟨c, hc⟩ := List.exists_mem_of_ne_nil _ hcalls
  rw [callsOf, List.mem_filter] at hc
  obtain rfl : udpKey = k := by
    have hkey := List.all_eq_true.mp hkeys c hc.1
    simp_all
  rw [← hw]
  exact ⟨_, rfl, by decide +kernel⟩

/-- The sweep removes a flow one second after its last packet, because the kernel counted its
packets from the second one on. -/
theorem fastPath_flow_expires : ¬ ∀ (env : Env) (fd : ℤ) (boot : ℚ) (iface : Bytes)
    (ml dump : Bool) (t : ℤ) (ops : List PipelineOp),
    (t :: ops.filterMap PipelineOp.sweepTime).Pairwise (· ≤ ·) →
      Along (next env fd) (KeepsActive env fd boot) (start iface ml dump) ops := by
  intro h
  obtain ⟨-, -, -, -, -, hage, -⟩ := h default 3 0 [] true false 0 knownFlow (by decide)
  generalize hw : (next _ _ _ _ : Pipeline) = w at hage
  -- what the sweep leaves follows from the state before it, without a visit to each bucket
  have hattended : w.Attended 0 := by
    rw [← hw]
    exact (((((attended_start [] true false 0).step_of_ne_age default 3 rfl).step_of_ne_age
      default 3 rfl).step_of_ne_age default 3 rfl).step_of_ne_age default 3 rfl).step_of_ne_age
      default 3 rfl
  have hphase : w.phase = .serving := by
    rw [← hw]
    decide +kernel
  have hcalls : (w.callsOf udpKey).getLast?.map (fun c => (c.2.2.timeSeen : ℚ)) = some 0 := by
    rw [← hw]
    decide +kernel
  have hne : w.callsOf udpKey ≠ [] := by
    intro hnil
    rw [hnil] at hcalls
    cases hcalls
  have hseen : SeenRecently 0 41 udpKey w := by
    rw [← hw]
    exact ⟨_, rfl, by decide +kernel⟩
  have hsome := hage hphase udpKey hseen hne
  obtain ⟨c, hc, hrecent⟩ :=
    (hattended.isSome_swept_iff default 3 (by norm_num) hphase udpKey hne).mp hsome
  rw [Option.mem_def.mp hc, Option.map_some, Option.some.injEq] at hcalls
  have htimeout : udpKey.timeout = 30 := by decide +kernel
  rw [hcalls, htimeout] at hrecent
  norm_num at hrecent

end Pipeline

end NdpiObserve
