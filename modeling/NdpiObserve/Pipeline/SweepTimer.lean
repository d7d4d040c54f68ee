import NdpiObserve.Pipeline.ActiveFlows

/-!
# The sweep of the main loop

The main loops of `daemon/main.c` and `daemon/main_noebpf.c` sweep the idle flows alike: an
iteration hands its packets to the engine, reads the clock, and when ten seconds have passed since
`last_age`, calls `ndpi_engine_age`, which reads the clock again. When the clock does not go back,
a flow is kept as long as its last event is within the idle timeout, and is gone ten seconds later
at the end of the next iteration.

## Main definitions

* `Iteration`, `MainLoop`, `MainLoop.iterate`: the main loop as far as the engine is concerned.
* `EngineRun.Timed`: the invariant, relative to `last_age` and the last reading of the clock.

## Main results

* `MainLoop.sweep_on_time_run`: when the flows are removed.
-/

namespace NdpiObserve

open Machine

theorem FlowKey.timeout_nonneg (k : FlowKey) : 0 ≤ k.timeout := by
  rw [timeout, flowTcpIdleSec, flowUdpIdleSec]
  split <;> norm_num

/-! ### The loop -/

/-- An iteration of the main loop that is not interrupted in `poll`. -/
structure Iteration where
  /-- The events that are handed to `ndpi_engine_process`, in order. -/
  events : List (FlowEvent × Answers)
  /-- `time_t now = time(NULL)`. -/
  now : ℤ
  /-- `time(NULL)` in `ndpi_engine_age`, if it is called. -/
  ageNow : ℤ

/-- What the clock shows in an iteration, in order. -/
def Iteration.readings (it : Iteration) : List ℤ :=
  it.events.map (fun x => x.2.timeSeen) ++ [it.now, it.ageNow]

/-- The engine and `last_age`. -/
structure MainLoop where
  daemon : EngineRun
  lastAge : ℤ

namespace MainLoop

/-- The loop before its first iteration, at the time `t`. -/
def start (iface : Bytes) (ml dump : Bool) (t : ℤ) : MainLoop where
  daemon := EngineRun.start iface ml dump
  lastAge := t

/-- One iteration; `fd` is `verdict_fd`. -/
def iterate (env : Env) (fd : ℤ) (w : MainLoop) (it : Iteration) : MainLoop :=
  let daemon := run (EngineRun.step env) w.daemon (it.events.map fun x => .process x.1 fd x.2)
  if it.now - w.lastAge ≥ 10 then
    { daemon := daemon.step env (.age it.ageNow), lastAge := it.now }
  else { w with daemon := daemon }

end MainLoop

/-! ### Entries and times -/

namespace EngineRun

/-- The calls on the entry of a flow. -/
def callsOf (w : EngineRun) (k : FlowKey) : List (FlowEntry × FlowEvent × Answers) :=
  w.calls.filter fun c => c.2.1.key = k

/-- The entry of a flow has the time of its last event. It was within its timeout at the last
sweep, after the time `last`. A flow with events but no entry is idle for too long at the time
`t`, which is after all others. -/
structure Timed (last t : ℤ) (w : EngineRun) : Prop where
  sound : w.Sound
  last_le : last ≤ t
  lastSeen : ∀ k, ∀ f ∈ w.entry k, ∃ c ∈ (w.callsOf k).getLast?, f.lastSeen = c.2.2.timeSeen
  kept : ∀ k, ∀ f ∈ w.entry k, last - f.lastSeen ≤ k.timeout
  absent : ∀ k, w.entry k = none → ∀ c ∈ (w.callsOf k).getLast?,
    k.timeout < t - (c.2.2.timeSeen : ℚ)

theorem timed_start (iface : Bytes) (ml dump : Bool) (t : ℤ) :
    Timed t t (start iface ml dump) := by
  have hnone (k : FlowKey) : (start iface ml dump).entry k = none := rfl
  have hcalls (k : FlowKey) : (start iface ml dump).callsOf k = [] := rfl
  refine ⟨sound_start iface ml dump, le_refl t, fun k => ?_, fun k => ?_, fun k _ => ?_⟩
  · rw [hnone]
    rintro f ⟨⟩
  · rw [hnone]
    rintro f ⟨⟩
  · rw [hcalls]
    rintro c ⟨⟩

namespace Timed

variable {last t : ℤ} {w : EngineRun} (env : Env)

/-- Time goes by. -/
theorem mono (h : Timed last t w) {t' : ℤ} (hle : t ≤ t') : Timed last t' w where
  sound := h.sound
  last_le := h.last_le.trans hle
  lastSeen := h.lastSeen
  kept := h.kept
  absent k hk c hc := by
    have hle' : (t : ℚ) ≤ t' := by exact_mod_cast hle
    have habsent := h.absent k hk c hc
    linarith

/-- A call at the time that the clock shows. -/
theorem process (h : Timed last t w) (evt : FlowEvent) (fd : ℤ) {a : Answers}
    (hle : t ≤ a.timeSeen) : Timed last a.timeSeen (w.step env (.process evt fd a)) := by
  have hmono := h.mono hle
  cases ho : w.engine.obtain evt a with
  | none =>
    have hentry (k : FlowKey) : (w.step env (.process evt fd a)).entry k = w.entry k :=
      lookup_step_process_of_none env fd ho k
    have hcalls (k : FlowKey) : (w.step env (.process evt fd a)).callsOf k = w.callsOf k := by
      rw [callsOf, step_process_of_none env fd ho, callsOf]
    refine ⟨h.sound.step env _, hmono.last_le, fun k => ?_, fun k => ?_, fun k => ?_⟩
    · rw [hentry, hcalls]
      exact h.lastSeen k
    · rw [hentry]
      exact h.kept k
    · rw [hentry, hcalls]
      exact hmono.absent k
  | some f =>
    have hentry (k : FlowKey) : (w.step env (.process evt fd a)).entry k =
        if evt.key = k then some (w.body env evt fd a f).flow else w.entry k :=
      h.sound.lookup_step_process env fd ho k
    have hcalls (k : FlowKey) : (w.step env (.process evt fd a)).callsOf k =
        w.callsOf k ++ if evt.key = k then [(f, evt, a)] else [] := by
      rw [callsOf, step_process_of_some env fd ho]
      dsimp only
      rw [List.filter_append, callsOf, List.filter_singleton, Bool.cond_decide]
    have hseen : (w.body env evt fd a f).flow.lastSeen = a.timeSeen :=
      Call.process_lastSeen env evt fd a _
    refine ⟨h.sound.step env _, hmono.last_le, fun k => ?_, fun k => ?_, fun k => ?_⟩
    · rw [hentry, hcalls]
      split
      · rw [List.getLast?_concat]
        rintro _ ⟨⟩
        exact ⟨_, rfl, hseen⟩
      · rw [List.append_nil]
        exact h.lastSeen k
    · rw [hentry]
      split
      · rintro _ ⟨⟩
        have hlast : (last : ℚ) ≤ a.timeSeen := by exact_mod_cast hmono.last_le
        rw [hseen]
        exact (sub_nonpos.mpr hlast).trans k.timeout_nonneg
      · exact h.kept k
    · rw [hentry, hcalls]
      split
      · rintro ⟨⟩
      · rw [List.append_nil]
        exact hmono.absent k

/-- A sweep. -/
theorem age (h : Timed last t w) {last' now : ℤ} (hle : t ≤ last') (hnow : last' ≤ now) :
    Timed last' now (w.step env (.age now)) := by
  have hmono := h.mono (hle.trans hnow)
  have hentry (k : FlowKey) : (w.step env (.age now)).entry k =
      (w.entry k).filter fun f => !f.isIdle now := h.sound.lookup_step_age env now k
  have hcalls (k : FlowKey) : (w.step env (.age now)).callsOf k = w.callsOf k := by
    rw [callsOf, step_age, callsOf]
  have htimeout {k : FlowKey} {f : FlowEntry} (hf : w.entry k = some f) :
      f.timeout = k.timeout := by
    rw [FlowEntry.timeout, h.sound.valid.key_lookup hf]
    rfl
  refine ⟨h.sound.step env _, hnow, fun k f hf => ?_, fun k f hf => ?_, fun k hk c hc => ?_⟩
  · rw [hentry, Option.mem_def, Option.filter_eq_some_iff] at hf
    rw [hcalls]
    exact h.lastSeen k f hf.1
  · rw [hentry, Option.mem_def, Option.filter_eq_some_iff] at hf
    have hkept : (now : ℚ) - f.lastSeen ≤ k.timeout := by
      simpa [FlowEntry.isIdle, htimeout hf.1] using hf.2
    have hnow' : (last' : ℚ) ≤ now := by exact_mod_cast hnow
    linarith
  · rw [hcalls] at hc
    cases hf : w.entry k with
    | none => exact hmono.absent k hf c hc
    | some f =>
      obtain ⟨c', hc', hseen⟩ := h.lastSeen k f hf
      obtain rfl : c' = c := Option.mem_unique hc' hc
      rw [hentry, hf, Option.filter_eq_none_iff] at hk
      have hidle := hk f rfl
      rw [FlowEntry.isIdle, htimeout hf, hseen] at hidle
      simpa only [Bool.not_eq_true', Bool.not_eq_false, decide_eq_true_eq] using hidle

end Timed

end EngineRun

/-! ### Runs -/

namespace MainLoop

open EngineRun

variable (env : Env) (fd : ℤ)

/-- The engine is timed, relative to `last_age`. -/
def Timed (t : ℤ) (w : MainLoop) : Prop := EngineRun.Timed w.lastAge t w.daemon

/-- The packets of an iteration. -/
theorem timed_events {last t : ℤ} {w : EngineRun} (h : EngineRun.Timed last t w)
    (events : List (FlowEvent × Answers)) {t' : ℤ} (hle : t ≤ t')
    (hclock : (t :: events.map fun x => x.2.timeSeen).Pairwise (· ≤ ·))
    (hlast : ∀ x ∈ events, x.2.timeSeen ≤ t') :
    EngineRun.Timed last t' (run (step env) w (events.map fun x => .process x.1 fd x.2)) := by
  induction events generalizing w t with
  | nil => exact h.mono hle
  | cons x events ih =>
    rw [List.map_cons, List.pairwise_cons] at hclock
    obtain ⟨hbefore, hclock⟩ := hclock
    rw [List.forall_mem_cons] at hlast
    exact ih (h.process env x.1 fd (hbefore _ List.mem_cons_self)) hlast.1 hclock hlast.2

/-- An iteration. -/
theorem Timed.iterate {t : ℤ} {w : MainLoop} (h : w.Timed t) (it : Iteration)
    (hclock : (t :: it.readings).Pairwise (· ≤ ·)) : (w.iterate env fd it).Timed it.ageNow := by
  rw [Iteration.readings, ← List.cons_append, List.pairwise_append] at hclock
  obtain ⟨hevents, htail, hle⟩ := hclock
  have hnow : it.now ≤ it.ageNow := (List.pairwise_cons.mp htail).1 _ List.mem_cons_self
  have hmid (r : ℤ) (hr : r ∈ t :: it.events.map fun x => x.2.timeSeen) : r ≤ it.now :=
    hle r hr _ List.mem_cons_self
  have hdrained := timed_events env fd h it.events (hmid t List.mem_cons_self) hevents
    fun x hx => hmid _ (List.mem_cons_of_mem _ (List.mem_map_of_mem hx))
  rw [MainLoop.iterate]
  split
  · exact hdrained.age env (le_refl _) hnow
  · exact hdrained.mono hnow

/-- At the end of an iteration, the last sweep is at most nine seconds old. -/
theorem now_sub_lastAge_iterate (w : MainLoop) (it : Iteration) :
    it.now - (w.iterate env fd it).lastAge ≤ 9 := by
  rw [iterate]
  split <;> dsimp only <;> omega

/-- The invariant of every run. -/
theorem exists_timed_run (its : List Iteration) (l : List ℤ) {t : ℤ} {w : MainLoop}
    (h : w.Timed t) (hclock : (t :: (its.flatMap Iteration.readings ++ l)).Pairwise (· ≤ ·)) :
    ∃ t', (run (iterate env fd) w its).Timed t' ∧ (t' :: l).Pairwise (· ≤ ·) := by
  induction its generalizing t w with
  | nil => exact ⟨t, h, hclock⟩
  | cons it its ih =>
    rw [List.flatMap_cons, List.append_assoc, ← List.cons_append, List.pairwise_append] at hclock
    obtain ⟨hit, hrest, hle⟩ := hclock
    refine ih (h.iterate env fd it hit) (List.pairwise_cons.mpr ⟨fun r hr => hle _ ?_ r hr, hrest⟩)
    simp [Iteration.readings]

/-- **Sweeps on time.** Let the clock not go back in the run of the loop. At the end of every
iteration, a flow whose last event is within the idle timeout is in the table, with the time of this
event, and a flow whose last event is nine seconds older than that has been removed. -/
theorem sweep_on_time_run (iface : Bytes) (ml dump : Bool) (t : ℤ) (its : List Iteration)
    (it : Iteration) (hclock : (t :: (its ++ [it]).flatMap Iteration.readings).Pairwise (· ≤ ·))
    {k : FlowKey} {c : FlowEntry × FlowEvent × Answers} :
    let w := run (iterate env fd) (start iface ml dump t) (its ++ [it])
    c ∈ (w.daemon.callsOf k).getLast? →
      (it.ageNow - (c.2.2.timeSeen : ℚ) ≤ k.timeout →
        ∃ f ∈ w.daemon.entry k, f.lastSeen = c.2.2.timeSeen) ∧
      (k.timeout + 9 < it.now - (c.2.2.timeSeen : ℚ) → w.daemon.entry k = none) := by
  intro w hc
  have hw : w = (run (iterate env fd) (start iface ml dump t) its).iterate env fd it :=
    run_concat ..
  rw [List.flatMap_append, List.flatMap_singleton] at hclock
  obtain ⟨t', hbefore, hit⟩ := exists_timed_run env fd its it.readings
    (show (start iface ml dump t).Timed t from timed_start iface ml dump t) hclock
  have htimed : w.Timed it.ageNow := hw ▸ hbefore.iterate env fd it hit
  have hlate : it.now - w.lastAge ≤ 9 := hw ▸ now_sub_lastAge_iterate env fd _ it
  constructor
  · intro hrecent
    cases hf : w.daemon.entry k with
    | none => exact absurd (htimed.absent k hf c hc) (not_lt.mpr hrecent)
    | some f =>
      obtain ⟨c', hc', hseen⟩ := htimed.lastSeen k f hf
      obtain rfl : c' = c := Option.mem_unique hc' hc
      exact ⟨f, rfl, hseen⟩
  · intro hold
    by_contra hsome
    obtain ⟨f, hf⟩ := Option.ne_none_iff_exists'.mp hsome
    obtain ⟨c', hc', hseen⟩ := htimed.lastSeen k f hf
    obtain rfl : c' = c := Option.mem_unique hc' hc
    have hkept := htimed.kept k f hf
    have hlate' : (it.now : ℚ) - w.lastAge ≤ 9 := by exact_mod_cast hlate
    rw [hseen] at hkept
    linarith

/-- A UDP flow with one packet at the time 0 is kept for thirty seconds, and is gone after forty. -/
theorem sweep_on_time_run_udp :
    let w (now : ℤ) := run (iterate default (-1)) (start [] true false 0)
      [{ events := [(udpEvent, {})], now := 0, ageNow := 0 },
        { events := [], now := now, ageNow := now }]
    ((w 30).daemon.entry udpEvent.key).isSome = true ∧ (w 40).daemon.entry udpEvent.key = none := by
  intro w
  have hclock (now : ℤ) (h : 0 ≤ now) : ([0, 0, 0, 0, now, now] : List ℤ).Pairwise (· ≤ ·) := by
    simp [h]
  have hlast (now : ℤ) : (FlowTable.fresh udpEvent.key 0, udpEvent, {}) ∈
      ((w now).daemon.callsOf udpEvent.key).getLast? := by
    have hfirst : ((EngineRun.start [] true false).step default (.process udpEvent (-1) {})).calls =
        [(FlowTable.fresh udpEvent.key 0, udpEvent, {})] := by
      rw [step_process_of_some default (-1) (f := FlowTable.fresh udpEvent.key 0) rfl]
      rfl
    have hcalls : (w now).daemon.calls = [(FlowTable.fresh udpEvent.key 0, udpEvent, {})] := by
      rw [← hfirst]
      show (iterate _ _ (iterate _ _ _ _) _).daemon.calls = _
      rw [iterate]
      split
      · dsimp only
        rw [step_age]
        rfl
      · rfl
    rw [callsOf, hcalls]
    rfl
  have htimeout : udpEvent.key.timeout = 30 := rfl
  have hrun (now : ℤ) (h : 0 ≤ now) := sweep_on_time_run default (-1) [] true false 0
    [{ events := [(udpEvent, {})], now := 0, ageNow := 0 }]
    { events := [], now := now, ageNow := now }
    (hclock now h) (hlast now)
  rw [htimeout] at hrun
  obtain ⟨f, hf, -⟩ := (hrun 30 (by norm_num)).1 (by norm_num)
  exact ⟨Option.isSome_of_mem hf, (hrun 40 (by norm_num)).2 (by norm_num)⟩

end MainLoop

end NdpiObserve
