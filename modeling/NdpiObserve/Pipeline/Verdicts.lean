import NdpiObserve.Pipeline.MainLoop

/-!
# Verdicts on both sides

A verdict that the daemon writes stays: the kernel submits no more events of its flow, the events
that still wait find the daemon's entry decided, and the sweep comes only after they have been
processed. So all later packets are counted under one application. It is the verdict's, unless
the kernel had given the flow up before: it looks for a verdict only while it classifies.

## Main definitions

* `Pipeline.StoresFlow`: the steps that find room in the flow map.
* `Pipeline.Agrees`: the invariant that relates the verdict to both entries of its flow.

## Main results

* `Pipeline.verdict_agreement_run`: what the packets after a verdict are counted under.
* `Pipeline.late_verdict_ignored`: a verdict that comes after the kernel has given up.
-/

namespace NdpiObserve

open Machine

/-! ### The kernel's entry -/

/-- The kernel's entry of a flow, once decided, carries the verdict or `0`. -/
def EntryAgrees (verdict : Option UInt16) (entry : Option ObsFlowState) : Prop :=
  ∀ fs, entry = some fs → (fs.state = .classified → verdict = some fs.appId) ∧
    (fs.state = .gaveUp → fs.appId = 0)

section FlowStep

variable {p : Pkt} {evt : Option FlowEvent} {full : Prop} {verdict : Option UInt16}
  {old new : Option ObsFlowState} {path : PktPath}

theorem FlowStep.entryAgrees (h : FlowStep p evt full verdict old path new)
    (hold : EntryAgrees verdict old) : EntryAgrees verdict new := by
  cases h with
  | first =>
    rintro _ ⟨⟩
    exact ⟨by rintro ⟨⟩, by rintro ⟨⟩⟩
  | unstored => rintro _ ⟨⟩
  | decided fs =>
    rintro _ ⟨⟩
    exact hold fs rfl
  | learned fs v hopen hv =>
    rintro _ ⟨⟩
    exact ⟨fun _ => hv, by rintro ⟨⟩⟩
  | gaveUp =>
    rintro _ ⟨⟩
    exact ⟨by rintro ⟨⟩, fun _ => rfl⟩
  | pending fs hopen =>
    rintro _ ⟨⟩
    exact hold fs rfl

theorem FlowStep.new_ne_none (h : FlowStep p evt full verdict old path new)
    (hstored : old = none → ¬full) : new ≠ none := by
  cases h with
  | unstored hfull => exact absurd hfull (hstored rfl)
  | first | decided | learned | gaveUp | pending => exact Option.some_ne_none _

/-- With a verdict no event of the flow is submitted. Its packets are counted under the verdict,
or under `0` when the flow was given up, and that does not change. -/
theorem FlowStep.app_eq {v : UInt16} {fs : ObsFlowState}
    (h : FlowStep p evt full (some v) (some fs) path new) (hold : EntryAgrees (some v) (some fs)) :
    path.event = none ∧ path.app = some (if fs.state = .gaveUp then 0 else v) ∧
      ∃ fs', new = some fs' ∧ (fs'.state = .gaveUp ↔ fs.state = .gaveUp) := by
  obtain ⟨hclass, hgave⟩ := hold fs rfl
  cases h with
  | decided _ hterm =>
    refine ⟨rfl, ?_, _, rfl, Iff.rfl⟩
    cases hstate : fs.state with
    | new | classifying => simp [hstate, FlowState.isTerminal] at hterm
    | classified => exact (hclass hstate).symm
    | gaveUp => exact congrArg some (hgave hstate)
  | learned _ v' hopen hv =>
    obtain rfl := Option.some.inj hv
    have hne : fs.state ≠ .gaveUp := by
      intro hstate
      simp [hstate, FlowState.isTerminal] at hopen
    refine ⟨rfl, ?_, _, rfl, ?_⟩
    · rw [if_neg hne]
      rfl
    · simp [hne]
  | gaveUp _ _ hv => cases hv
  | pending _ _ hv => cases hv

end FlowStep

namespace Pipeline

/-! ### The verdict and the two entries -/

/-- No packet of the flow finds it missing and the flow map full. -/
def StoresFlow (k : FlowKey) (w : Pipeline) : PipelineOp → Prop
  | .packet p => Kernel.StoresFlow k w.kernel (.packet p)
  | .deliver _ | .drained | .age _ | .loop => True

instance (k : FlowKey) (w : Pipeline) (op : PipelineOp) : Decidable (StoresFlow k w op) :=
  match op with
  | .packet p => inferInstanceAs (Decidable (Kernel.StoresFlow k w.kernel (.packet p)))
  | .deliver _ | .drained | .age _ | .loop => isTrue trivial

/-- A verdict is published only for a flow that the kernel has stored. From then on the events of
the flow that still wait find the daemon's entry decided, and they are gone when the main loop
leaves the ring buffer. -/
structure Agrees (k : FlowKey) (w : Pipeline) : Prop where
  sound : w.daemon.Sound
  absent : w.kernelEntry k = none → w.ringOf k = [] ∧ w.verdict k = none
  published : w.verdict k ≠ none → w.ringOf k = [] ∨ w.phase = .draining ∧ w.Decided k
  entry : EntryAgrees (w.verdict k) (w.kernelEntry k)

variable (env : Env) (fd : ℤ) {w w' : Pipeline} {k : FlowKey}

theorem Agrees.of_same (h : w.Agrees k) (hs : Same k w w') (hphase : w'.phase = w.phase)
    (hsound : w'.daemon.Sound) : w'.Agrees k := by
  obtain ⟨hkernel, hverdict, hring, hdaemon, -⟩ := hs
  refine ⟨hsound, ?_, ?_, ?_⟩
  · rw [hkernel, hring, hverdict]
    exact h.absent
  · rw [hverdict, hring, hphase, Decided, hdaemon]
    exact h.published
  · rw [hkernel, hverdict]
    exact h.entry

theorem agrees_start (iface : Bytes) (ml dump : Bool) (k : FlowKey) :
    (start iface ml dump).Agrees k := by
  have hentry : (start iface ml dump).kernelEntry k = none := BoundedMap.lookup_empty k
  have hverdict : (start iface ml dump).verdict k = none := BoundedMap.lookup_empty k
  refine ⟨EngineRun.sound_start iface ml dump, fun _ => ⟨rfl, hverdict⟩,
    fun h => absurd hverdict h, ?_⟩
  rw [hentry]
  rintro fs ⟨⟩

theorem Agrees.packet (h : w.Agrees k) (p : Pkt)
    (hroom : Kernel.StoresFlow k w.kernel (.packet p)) :
    (w.next env fd (.packet p)).Agrees k := by
  rcases step_packet_cases env fd w p k with
    ⟨-, hsame⟩ | ⟨tot, path, hparse, -, hflow, hverdict, hring⟩
  · exact h.of_same hsame rfl h.sound
  · have hstored : w.kernelEntry k = none → ¬w.kernel.flowMap.IsFull := hroom (by rw [hparse]; rfl)
    refine ⟨h.sound, fun hnone => absurd hnone (hflow.new_ne_none hstored), ?_, ?_⟩
    · rw [hverdict, hring]
      intro hv
      obtain ⟨v, hv'⟩ := Option.ne_none_iff_exists'.mp hv
      obtain ⟨fs, hfs⟩ := Option.ne_none_iff_exists'.mp fun hnone => hv (h.absent hnone).2
      have hentry := h.entry
      rw [hv', hfs] at hflow hentry
      rw [(hflow.app_eq hentry).1, Option.toList_none, List.append_nil]
      exact h.published hv
    · rw [hverdict]
      exact hflow.entryAgrees h.entry

/-- While events of a flow with a verdict wait, the daemon's entry is decided. -/
theorem Agrees.exists_decided (h : w.Agrees k) (hv : w.verdict k ≠ none)
    (hring : w.ringOf k ≠ []) : ∃ f, w.daemonEntry k = some f ∧ f.state.isTerminal = true := by
  rcases h.published hv with hempty | ⟨-, hdecided⟩
  · exact absurd hempty hring
  · exact hdecided.exists_daemonEntry

/-- An event of a flow with a verdict does not change the verdict. -/
theorem Agrees.deliver_verdict (h : w.Agrees k) (a : Answers) (hv : w.verdict k ≠ none) :
    (w.next env fd (.deliver a)).verdict k = w.verdict k := by
  rcases step_deliver_flow env fd h.sound a k with hsame |
    ⟨evt, -, -, hring, -, ⟨-, -, hverdict, -⟩ | ⟨f, hf, -, hkernel, -⟩⟩
  · exact hsame.verdict
  · exact hverdict
  · obtain ⟨g, hg, hterm⟩ := h.exists_decided hv (by simp [hring])
    have hfg : f = g := by
      rcases hf with hf | ⟨hnone, -⟩
      · exact Option.some.inj (hf.symm.trans hg)
      · rw [hg] at hnone
        cases hnone
    rw [hfg, Call.exit_eq_cached_iff.mpr hterm] at hkernel
    rw [verdict, hkernel, if_neg (by simp [Exit.publishes])]
    rfl

theorem Agrees.deliver (h : w.Agrees k) (a : Answers) :
    (w.next env fd (.deliver a)).Agrees k := by
  have hsound := step_sound env fd h.sound (.deliver a)
  have hphase := step_deliver_phase env fd w a
  have hkept := h.deliver_verdict env fd a
  rcases step_deliver_flow env fd h.sound a k with hsame |
    ⟨evt, hdraining, -, hring, hentry, ⟨hnone, -, hverdict, -⟩ | ⟨f, hf, hentry', hkernel, -⟩⟩
  · exact h.of_same hsame hphase hsound
  all_goals
    have hwaits : w.ringOf k ≠ [] := by simp [hring]
    have hstored : w.kernelEntry k ≠ none := fun hnone => hwaits (h.absent hnone).1
  · -- without an entry there is no verdict either
    have hv : w.verdict k = none := by
      by_contra hv
      obtain ⟨f, hf, -⟩ := h.exists_decided hv hwaits
      rw [hnone] at hf
      cases hf
    refine ⟨hsound, fun hnone' => absurd (hentry.symm.trans hnone') hstored,
      fun hv' => absurd (hverdict.trans hv) hv', ?_⟩
    rw [hentry, hverdict]
    exact h.entry
  · have hterm : (w.daemon.body env evt fd a f).flow.state.isTerminal =
        (f.state.isTerminal || (f.exit evt a).decides) :=
      Call.process_isTerminal env evt fd a (w.daemon.engine.bodyStart evt a)
    have hdecided := decided_of_daemonEntry hentry'
    refine ⟨hsound, fun hnone => absurd (hentry.symm.trans hnone) hstored, fun hv => ?_, ?_⟩
    · refine .inr ⟨hphase.trans hdraining, hdecided.mpr ?_⟩
      rw [hterm, Bool.or_eq_true]
      by_cases hpub : fd ≥ 0 ∧ (f.exit evt a).publishes = true
      · exact .inr (Exit.decides_of_publishes hpub.2)
      · rw [verdict, hkernel, if_neg hpub] at hv
        obtain ⟨g, hg, hgterm⟩ := h.exists_decided hv hwaits
        rcases hf with hf | ⟨hnone, -⟩
        · exact .inl (Option.some.inj (hf.symm.trans hg) ▸ hgterm)
        · rw [hg] at hnone
          cases hnone
    · rw [hentry]
      intro fs hfs
      obtain ⟨hclass, hgave⟩ := h.entry fs hfs
      refine ⟨fun hstate => ?_, hgave⟩
      have hv := hclass hstate
      rw [hkept (by rw [hv]; exact Option.some_ne_none _), hv]

/-- Every step that stores the flow keeps the verdict and the two entries in agreement. -/
theorem Agrees.step (h : w.Agrees k) (op : PipelineOp) (hstores : StoresFlow k w op) :
    (w.next env fd op).Agrees k := by
  cases op with
  | packet p => exact h.packet env fd p hstores
  | deliver a => exact h.deliver env fd a
  | drained =>
    rcases step_drained_cases env fd w with heq | ⟨hempty, heq⟩
    · rwa [heq]
    · rw [heq]
      refine ⟨h.sound, h.absent, fun _ => .inl ?_, h.entry⟩
      change w.ring.filter _ = []
      rw [hempty, List.filter_nil]
  | age now =>
    rcases step_age_daemon env fd h.sound now with heq | ⟨hserving, d, heq, hd, -, -⟩
    · rwa [heq]
    · -- in this phase no event waits for a flow with a verdict
      rw [heq]
      refine ⟨hd, h.absent, fun hv => .inl ?_, h.entry⟩
      rcases h.published hv with hempty | ⟨hdraining, -⟩
      · exact hempty
      · rw [hserving] at hdraining
        cases hdraining
  | loop =>
    refine ⟨h.sound, h.absent, fun hv => ?_, h.entry⟩
    exact (h.published hv).imp_right fun hdraining => ⟨rfl, hdraining.2⟩

/-! ### After the verdict -/

/-- The application under which the packets of a flow with the verdict `app` are counted. -/
def countedAs (w : Pipeline) (k : FlowKey) (app : UInt16) : UInt16 := if w.GaveUp k then 0 else app

/-- A flow with the verdict `app` whose packets are counted under `c`. -/
structure Settled (k : FlowKey) (app c : UInt16) (w : Pipeline) : Prop extends w.Agrees k where
  verdict_eq : w.verdict k = some app
  countedAs_eq : w.countedAs k app = c

theorem Settled.exists_kernelEntry {app c : UInt16} (h : w.Settled k app c) :
    ∃ fs, w.kernelEntry k = some fs ∧ (if fs.state = .gaveUp then 0 else app) = c := by
  obtain ⟨fs, hfs⟩ := Option.ne_none_iff_exists'.mp fun hnone => by
    have hv := (h.absent hnone).2
    rw [h.verdict_eq] at hv
    cases hv
  refine ⟨fs, hfs, ?_⟩
  have hc := h.countedAs_eq
  simpa [countedAs, GaveUp, hfs] using hc

/-- **After the verdict.** No step takes a verdict back, and the packets of its flow are counted
under the same application from then on. -/
theorem Settled.preserved {app c : UInt16} (h : w.Settled k app c) (op : PipelineOp) :
    (w.next env fd op).Settled k app c ∧
      ∀ path ∈ pathsOf k [(w.step env fd op).2], path.app = some c := by
  obtain ⟨fs, hfs, hc⟩ := h.exists_kernelEntry
  have hstores : StoresFlow k w op := by
    cases op with
    | packet p =>
      intro _ hnone
      change w.kernelEntry k = none at hnone
      rw [hfs] at hnone
      cases hnone
    | deliver | drained | age | loop => trivial
  have hagrees := h.toAgrees.step env fd op hstores
  have hsettled {w' : Pipeline} (ha : w'.Agrees k) (hv : w'.verdict k = w.verdict k)
      (hentry : w'.kernelEntry k = w.kernelEntry k) : w'.Settled k app c := by
    refine ⟨ha, hv.trans h.verdict_eq, Eq.trans (if_congr ?_ rfl rfl) h.countedAs_eq⟩
    rw [GaveUp, hentry, GaveUp]
  have hquiet {α : Type} {P : α → Prop} : ∀ x ∈ ([] : List α), P x := by simp
  cases op with
  | packet p =>
    rcases step_packet_cases env fd w p k with
      ⟨hout, hsame⟩ | ⟨tot, path, -, hout, hflow, hverdict, -⟩
    · rw [hout]
      exact ⟨hsettled hagrees hsame.verdict hsame.kernelEntry, hquiet⟩
    · have hentry := h.entry
      rw [h.verdict_eq, hfs] at hflow hentry
      obtain ⟨-, happ, fs', hfs', hgave⟩ := hflow.app_eq hentry
      rw [hc] at happ
      refine ⟨⟨hagrees, hverdict.trans h.verdict_eq, Eq.trans (if_congr ?_ rfl rfl) hc⟩, ?_⟩
      · rw [GaveUp, hfs', Option.map_some, Option.some_inj, hgave]
      · rw [hout]
        simpa using happ
  | deliver a =>
    have hv : w.verdict k ≠ none := by
      rw [h.verdict_eq]
      exact Option.some_ne_none app
    have hentry : (w.next env fd (.deliver a)).kernelEntry k = w.kernelEntry k := by
      rcases step_deliver_flow env fd h.sound a k with hsame | ⟨_, -, -, -, hentry, -⟩
      · exact hsame.kernelEntry
      · exact hentry
    refine ⟨hsettled hagrees (h.deliver_verdict env fd a hv) hentry, ?_⟩
    rw [step]
    split <;> exact hquiet
  | drained =>
    rcases step_drained_cases env fd w with heq | ⟨-, heq⟩
    · rw [heq] at hagrees ⊢
      exact ⟨h, hquiet⟩
    · rw [heq] at hagrees ⊢
      exact ⟨hsettled hagrees rfl rfl, hquiet⟩
  | age now =>
    rcases step_age_daemon env fd h.sound now with heq | ⟨-, d, heq, -, -, -⟩
    · rw [heq] at hagrees ⊢
      exact ⟨h, hquiet⟩
    · rw [heq] at hagrees ⊢
      exact ⟨hsettled hagrees rfl rfl, hquiet⟩
  | loop => exact ⟨hsettled hagrees rfl rfl, hquiet⟩

theorem Settled.paths_run {app c : UInt16} (h : w.Settled k app c) (ops : List PipelineOp) :
    ∀ path ∈ pathsOf k (runOut (step env fd) w ops).2, path.app = some c := by
  induction ops generalizing w with
  | nil => simp [runOut, pathsOf, List.reduceOption]
  | cons op ops ih =>
    obtain ⟨hnext, hout⟩ := h.preserved env fd op
    rw [runOut]
    dsimp only
    rw [Kernel.pathsOf_cons]
    intro path hpath
    rcases List.mem_append.mp hpath with hpath | hpath
    · exact hout path hpath
    · exact ih hnext path hpath

/-- **Verdict agreement.** Once a verdict of a flow is in the verdict map, every later packet of
the flow is counted under it, or, when the kernel has given the flow up before, under `0`. -/
theorem verdict_agreement_run (iface : Bytes) (ml dump : Bool) (k : FlowKey)
    (ops ops' : List PipelineOp) (app : UInt16)
    (h : Along (next env fd) (StoresFlow k) (start iface ml dump) ops)
    (hv : (run (next env fd) (start iface ml dump) ops).verdict k = some app) :
    let w := run (next env fd) (start iface ml dump) ops
    (∀ path ∈ pathsOf k (runOut (step env fd) w ops').2,
      path.app = some (if w.GaveUp k then 0 else app)) ∧
    ∀ cpu i, (runOut (step env fd) w ops').1.kernel.counted cpu i = w.kernel.counted cpu i +
      ((runOut (step env fd) w ops').2.reduceOption.map fun o => o.share cpu i).sum := by
  have hagrees : (run (next env fd) (start iface ml dump) ops).Agrees k :=
    run_induction_along h (agrees_start iface ml dump k) fun _ op hw hop => hw.step env fd op hop
  exact ⟨Settled.paths_run env fd ⟨hagrees, hv, rfl⟩ ops', counted_run env fd _ ops'⟩

/-- A verdict for the first event of a flow: its next packet is counted under it. -/
theorem verdict_agreement_run_known :
    let w := run (next default 3) (start [] true false)
      [.packet udpPkt, .deliver { detection := { app := 5 } }]
    ∀ path ∈ pathsOf udpKey (runOut (step default 3) w [.packet udpPkt]).2, path.app = some 5 := by
  intro w path hpath
  have hopen : ¬w.GaveUp udpKey := by decide +kernel
  have h := (verdict_agreement_run default 3 [] true false udpKey
    [.packet udpPkt, .deliver { detection := { app := 5 } }] [.packet udpPkt] 5
    (by decide +kernel) (by decide +kernel)).1 path hpath
  rwa [if_neg hopen] at h

/-- Eight packets arrive before the first event is processed: the kernel has given the flow up
when its verdict comes, and counts the next packet under `0`. -/
theorem late_verdict_ignored : ¬ ∀ (env : Env) (fd : ℤ) (iface : Bytes) (ml dump : Bool)
    (k : FlowKey) (ops ops' : List PipelineOp) (app : UInt16),
    Along (next env fd) (StoresFlow k) (start iface ml dump) ops →
    (run (next env fd) (start iface ml dump) ops).verdict k = some app → app.toNat < 512 →
    ∀ path ∈ pathsOf k (runOut (step env fd) (run (next env fd) (start iface ml dump) ops) ops').2,
      path.app = some app := by
  intro h
  let w := run (next default 3) (start [] true false) (eightPackets { app := 5 })
  have hpaths := h default 3 [] true false udpKey (eightPackets { app := 5 }) [.packet udpPkt] 5
    (by decide +kernel) (by decide +kernel) (by decide)
  have hout : (pathsOf udpKey (runOut (step default 3) w [.packet udpPkt]).2).map PktPath.app =
      [some 0] := by
    decide +kernel
  obtain ⟨path, hpath, hzero⟩ := List.mem_map.mp (hout ▸ List.mem_singleton_self (some 0))
  rw [hpaths path hpath] at hzero
  exact absurd hzero (by decide)

end Pipeline

end NdpiObserve
