import NdpiObserve.Daemon.PacketAccounting

/-!
# The machine of one flow in the daemon

Whatever happens in the engine, an entry of the flow table moves in its own machine: its events
count its packets, one of the first eight decides it, the decision stays, and a sweep removes it
once it is idle. `FlowEntry.tracked` is the part of an entry that does not depend on verdicts.

## Main definitions

* `FlowEntry.tracked`: the packet counters, the clocks and the features of an entry.
* `Budgeted`: the entry is within its classification budget, with its features.
* `EntryStep`: what an operation of the engine does to the entry of one flow.
* `EngineOp.eventsOf`, `EngineRun.Keeps`: the events of a flow, and steps that leave it an entry.

## Main results

* `Call.process_tracked`: the tracked part after a call, by its exit.
* `EngineRun.entryStep_run`: every step of a run refines `EntryStep` for every flow.
* `EngineRun.flow_machine_run`: the life of an entry, from its first event to its removal.
-/

namespace NdpiObserve

open Machine

/-! ### The tracked part of an entry -/

/-- The entry without its decision, its hostname and its nDPI flow structure. -/
def FlowEntry.tracked (f : FlowEntry) : FlowEntry :=
  { f with
    state := .new, appId := 0, category := 0, classified := 0, creditMethod := .none, sni := []
    ndpiFlow := none }

/-- The exit gives the packet to nDPI. -/
def Exit.scans : Exit → Bool
  | .classified | .pending | .lastResort => true
  | _ => false

/-- The entry after the packet is counted. -/
def FlowEntry.countedBy (evt : FlowEvent) (a : Answers) (f : FlowEntry) : FlowEntry :=
  { f with
    lastSeen := a.timeSeen
    pktCount := f.pktCount + 1
    bytes := f.bytes + evt.pktLen.toUInt64
    packets := f.packets + 1 }

namespace Call

variable (env : Env) (evt : FlowEvent) (fd : ℤ) (a : Answers) (c : Call)

theorem tracked_of_core {c d : Call} (h : c.core = d.core) : c.flow.tracked = d.flow.tracked :=
  congrArg Call.flow h

/-- The features do not depend on what is tracked apart from them. -/
theorem tracked_mlAccumulate (f : FlowEntry) :
    (mlAccumulate evt f).tracked = mlAccumulate evt f.tracked := by
  dsimp only [mlAccumulate, FlowEntry.tracked]
  split <;> rfl

theorem tracked_scanned : (c.scanned evt a).flow.tracked =
    mlAccumulate evt (c.flow.countedBy evt a).tracked := by
  obtain ⟨ptr, l, -, -, heq⟩ := exists_scanned_eq evt a c
  rw [heq]
  exact tracked_mlAccumulate evt _

theorem tracked_verdictTail (d : Call) : (d.verdictTail env fd).flow.tracked = d.flow.tracked := by
  obtain ⟨rows, heq⟩ := exists_verdictTail_eq env fd d
  rw [heq]

/-- **The tracked part of an entry.** A call changes it by its exit alone. -/
theorem process_tracked : (c.process env evt fd a).flow.tracked =
    if c.flow.state.isTerminal then { c.flow.tracked with lastSeen := a.timeSeen }
    else if (c.flow.exit evt a).scans then mlAccumulate evt (c.flow.countedBy evt a).tracked
    else (c.flow.countedBy evt a).tracked := by
  cases hterm : c.flow.state.isTerminal with
  | true =>
    rw [process_of_isTerminal env evt fd a hterm, if_pos rfl]
    rfl
  | false =>
    rw [if_neg Bool.false_ne_true, process_eq]
    cases hexit : c.flow.exit evt a with
    | cached => simp [exit_eq_cached_iff.mp hexit] at hterm
    | emptyPending => rfl
    | emptyGaveUp =>
      dsimp only [giveUpEmpty, publish]
      split <;> rfl
    | allocFailed => rfl
    | classified =>
      rw [if_pos (by rfl)]
      dsimp only
      rw [tracked_verdictTail, tracked_of_core (ndpiVerdict_core env a _), tracked_scanned]
    | pending =>
      rw [if_pos (by rfl)]
      exact tracked_scanned evt a c
    | lastResort =>
      rw [if_pos (by rfl)]
      dsimp only
      rw [tracked_verdictTail, tracked_of_core (lastResort_core env a _), tracked_scanned]

end Call

/-! ### The budget of an entry -/

/-- The entry of the daemon is new or decided, within its classification budget, and has the
features of no more packets than it counted. -/
structure Budgeted (f : FlowEntry) : Prop where
  metered : Metered f
  state : f.state = .new ∨ f.state.isTerminal = true
  mlNPkts_le : f.mlNPkts.toNat ≤ f.pktCount.toNat

theorem budgeted_fresh (k : FlowKey) (t : ℤ) : Budgeted (FlowTable.fresh k t) where
  metered := metered_fresh k t
  state := .inl rfl
  mlNPkts_le := le_rfl

namespace Call

variable (env : Env) (evt : FlowEvent) (fd : ℤ) (a : Answers) (e : Engine) {f : FlowEntry}

theorem state_mlAccumulate (f : FlowEntry) : (mlAccumulate evt f).state = f.state := by
  dsimp only [mlAccumulate]
  split <;> rfl

theorem mlNPkts_mlAccumulate (f : FlowEntry) : (mlAccumulate evt f).mlNPkts = f.mlNPkts + 1 := by
  dsimp only [mlAccumulate]
  split <;> rfl

/-- A call decides the flow or leaves its state alone. -/
theorem process_state (h : f.state.isTerminal = false) :
    let c := Call.process env evt fd a { engine := e, flow := f }
    c.flow.state = f.state ∨ c.flow.state.isTerminal = true := by
  intro c
  cases hdec : (f.exit evt a).decides with
  | true =>
    refine .inr ?_
    rw [process_isTerminal, hdec, Bool.or_true]
  | false =>
    refine .inl ?_
    have hc : c = _ := process_eq env evt fd a { engine := e, flow := f }
    rw [hc]
    cases hexit : f.exit evt a with
    | cached => simp [exit_eq_cached_iff.mp hexit] at h
    | emptyPending => rfl
    | pending =>
      obtain ⟨ptr, l, -, -, heq⟩ := exists_scanned_eq evt a { engine := e, flow := f }
      exact (congrArg (fun c => c.flow.state) heq).trans (state_mlAccumulate evt _)
    | emptyGaveUp | allocFailed | classified | lastResort =>
      simp [hexit, Exit.decides] at hdec

/-- A call adds the features of at most one packet, and no more than it counts. -/
theorem process_mlNPkts (h : f.state.isTerminal = false) :
    (Call.process env evt fd a { engine := e, flow := f }).flow.mlNPkts =
      if (f.exit evt a).scans then f.mlNPkts + 1 else f.mlNPkts := by
  have htracked := congrArg FlowEntry.mlNPkts
    (process_tracked env evt fd a { engine := e, flow := f })
  rw [if_neg (by simp [h])] at htracked
  refine Eq.trans htracked ?_
  dsimp only
  split
  · exact mlNPkts_mlAccumulate evt _
  · rfl

theorem process_budgeted (hf : Budgeted f) :
    Budgeted (Call.process env evt fd a { engine := e, flow := f }).flow := by
  refine ⟨process_metered env evt fd a e hf.metered, ?_, ?_⟩
  all_goals cases hterm : f.state.isTerminal
  · rcases process_state env evt fd a e hterm with h | h
    · rw [h]
      exact hf.state
    · exact .inr h
  · refine .inr ?_
    rw [process_isTerminal, hterm, Bool.true_or]
  · obtain ⟨hcount, -, -⟩ := process_meters_toNat env evt fd a e hf.metered hterm
    have hle := hf.mlNPkts_le
    have hmax := hf.metered.pktCount_le
    rw [hcount, process_mlNPkts env evt fd a e hterm]
    split
    · rw [UInt8.toNat_add, UInt8.toNat_one]
      omega
    · omega
  · rw [process_of_isTerminal env evt fd a hterm]
    exact hf.mlNPkts_le

end Call

/-! ### The machine -/

/-- What an operation of the engine does to the entry of the flow `k`. -/
inductive EntryStep (k : FlowKey) : EngineOp → Option FlowEntry → Option FlowEntry → Prop
  /-- The event of another flow. -/
  | foreign {evt : FlowEvent} {fd : ℤ} {a : Answers} {o : Option FlowEntry} (h : evt.key ≠ k) :
    EntryStep k (.process evt fd a) o o
  /-- The entry cannot be allocated. -/
  | unallocated {evt : FlowEvent} {fd : ℤ} {a : Answers} (h : evt.key = k)
    (hcalloc : a.calloc = false) : EntryStep k (.process evt fd a) none none
  /-- An event of a flow that is not decided, perhaps the first one: it is counted, and decides
  the flow or leaves it new. -/
  | counted {evt : FlowEvent} {fd : ℤ} {a : Answers} {o : Option FlowEntry} {f f' : FlowEntry}
    (h : evt.key = k) (hf : f = o.getD (FlowTable.fresh k a.timeCreated)) (hnew : f.state = .new)
    (hcount : f'.pktCount.toNat = f.pktCount.toNat + 1)
    (htraffic : f'.packets.toNat = f.packets.toNat + 1 ∧
      f'.bytes.toNat = f.bytes.toNat + evt.pktLen.toNat)
    (hml : f'.mlNPkts.toNat = f.mlNPkts.toNat ∨ f'.mlNPkts.toNat = f.mlNPkts.toNat + 1)
    (hstate : f'.state = .new ∧ f'.pktCount.toNat < 8 ∨
      f'.state = .classified ∨ f'.state = .gaveUp) :
    EntryStep k (.process evt fd a) o (some f')
  /-- An event of a decided flow. -/
  | cached {evt : FlowEvent} {fd : ℤ} {a : Answers} {f : FlowEntry} (h : evt.key = k)
    (hterm : f.state.isTerminal = true) :
    EntryStep k (.process evt fd a) (some f) (some { f with lastSeen := a.timeSeen })
  /-- A sweep. -/
  | swept {now : ℤ} {o : Option FlowEntry} :
    EntryStep k (.age now) o (o.filter fun f => !f.isIdle now)

theorem Engine.bodyStart_mlEnabled (e : Engine) (evt : FlowEvent) (a : Answers) :
    (e.bodyStart evt a).mlEnabled = e.mlEnabled := by
  obtain ⟨cache, h⟩ := e.exists_observeDns_eq evt a
  rw [Engine.bodyStart, h]

/-- A call has no entry when its flow has none and none can be allocated. -/
theorem Engine.obtain_eq_none_iff (e : Engine) {evt : FlowEvent} {a : Answers} :
    e.obtain evt a = none ↔ flowTableLookup e.flows evt.key = none ∧ a.calloc = false := by
  rw [Engine.obtain]
  cases hl : flowTableLookup e.flows evt.key with
  | some f => simp [FlowTable.getOrCreate_of_some hl]
  | none =>
    rw [FlowTable.getOrCreate_of_none hl]
    cases a.calloc <;> simp

namespace EngineRun

variable (env : Env) {w : EngineRun}

/-- The entry of a flow. -/
def entry (w : EngineRun) (k : FlowKey) : Option FlowEntry := flowTableLookup w.engine.flows k

/-- Every entry of every run is within its budget. -/
theorem budgeted_run (iface : Bytes) (ml dump : Bool) (ops : List EngineOp) :
    ∀ f ∈ (run (step env) (start iface ml dump) ops).flows, Budgeted f :=
  forall_flows_run budgeted_fresh
    (fun evt fd a e _ hf => Call.process_budgeted env evt fd a e hf) iface ml dump ops

theorem Sound.mem_flows (hw : w.Sound) {k : FlowKey} {f : FlowEntry} (h : w.entry k = some f) :
    f ∈ w.flows :=
  Multiset.mem_add.mpr (.inl (hw.valid.lookup_eq_some_iff.mp h).1)

/-- The event of a flow that is not decided is counted. -/
theorem entryStep_counted {evt : FlowEvent} {fd : ℤ} {a : Answers} {f : FlowEntry}
    {o : Option FlowEntry} (hf : Budgeted f) (hnew : f.state = .new)
    (ho : f = o.getD (FlowTable.fresh evt.key a.timeCreated)) :
    EntryStep evt.key (.process evt fd a) o (some (w.body env evt fd a f).flow) := by
  have hopen : f.state.isTerminal = false := by
    rw [hnew]
    rfl
  have hf' : Budgeted (w.body env evt fd a f).flow := Call.process_budgeted env evt fd a _ hf
  obtain ⟨hcount, hpackets, hbytes⟩ :=
    Call.process_meters_toNat env evt fd a (w.engine.bodyStart evt a) hf.metered hopen
  have hlt : f.pktCount.toNat < 8 := hf.metered.pktCount_lt hopen
  refine .counted rfl ho hnew hcount ⟨hpackets, hbytes⟩ ?_ ?_
  · have hml := Call.process_mlNPkts env evt fd a (w.engine.bodyStart evt a) hopen
    have hle := hf.mlNPkts_le
    rw [body, hml]
    split
    · refine .inr ?_
      rw [UInt8.toNat_add, UInt8.toNat_one]
      omega
    · exact .inl rfl
  · cases hstate : (w.body env evt fd a f).flow.state with
    | new => exact .inl ⟨rfl, hf'.metered.pktCount_lt (by rw [hstate]; rfl)⟩
    | classified => exact .inr (.inl rfl)
    | gaveUp => exact .inr (.inr rfl)
    | classifying =>
      rcases hf'.state with h | h
      · simp [hstate] at h
      · simp [hstate, FlowState.isTerminal] at h

/-- **Refinement of one flow.** An operation of the engine does to the entry of every flow what
`EntryStep` says. -/
theorem Sound.entryStep (hw : w.Sound) (hP : ∀ f ∈ w.flows, Budgeted f) (op : EngineOp)
    (k : FlowKey) : EntryStep k op (w.entry k) ((w.step env op).entry k) := by
  cases op with
  | age now =>
    have hage : (w.step env (.age now)).entry k = (w.entry k).filter fun f => !f.isIdle now :=
      hw.lookup_step_age env now k
    rw [hage]
    exact .swept
  | process evt fd a =>
    cases hobtain : w.engine.obtain evt a with
    | none =>
      have hsame : (w.step env (.process evt fd a)).entry k = w.entry k :=
        lookup_step_process_of_none env fd hobtain k
      rw [hsame]
      by_cases hk : evt.key = k
      · obtain ⟨hl, hcalloc⟩ := w.engine.obtain_eq_none_iff.mp hobtain
        rw [hk] at hl
        rw [entry, hl]
        exact .unallocated hk hcalloc
      · exact .foreign hk
    | some f =>
      have hlookup : (w.step env (.process evt fd a)).entry k =
          if evt.key = k then some (w.body env evt fd a f).flow else w.entry k :=
        hw.lookup_step_process env fd hobtain k
      rw [hlookup]
      by_cases hk : evt.key = k
      case neg =>
        rw [if_neg hk]
        exact .foreign hk
      case pos =>
        subst hk
        rw [if_pos rfl]
        rcases entered_cases hobtain with ⟨hl, -⟩ | ⟨rfl, hl, -⟩
        · have hf : Budgeted f := hP f (hw.mem_flows hl)
          rw [entry, hl]
          rcases hf.state with hnew | hterm
          · exact entryStep_counted env hf hnew rfl
          · rw [body, Call.process_of_isTerminal env evt fd a hterm]
            exact .cached rfl hterm
        · rw [entry, hl]
          exact entryStep_counted env (budgeted_fresh _ _) rfl rfl

/-- Every operation of every run refines `EntryStep` for every flow. -/
theorem entryStep_run (iface : Bytes) (ml dump : Bool) (ops : List EngineOp) (op : EngineOp)
    (k : FlowKey) :
    let w := run (step env) (start iface ml dump) ops
    EntryStep k op (w.entry k) ((w.step env op).entry k) :=
  (sound_run env iface ml dump ops).entryStep env (budgeted_run env iface ml dump ops) op k

/-! ### The life of an entry -/

/-- The operations of a run that keep or give the flow `k` an entry, step by step. -/
def Keeps (w : EngineRun) (k : FlowKey) (ops : List EngineOp) : Prop :=
  Along (step env) (fun w op => ((w.step env op).entry k).isSome = true) w ops

end EngineRun

/-- The operation is an event of the flow `k`. -/
def EngineOp.isEvent (k : FlowKey) : EngineOp → Bool
  | .process evt _ _ => evt.key = k
  | .age _ => false

/-- The number of events of the flow `k`. -/
def eventsOf (k : FlowKey) (ops : List EngineOp) : ℕ := ops.countP (EngineOp.isEvent k)

namespace EntryStep

variable {k : FlowKey} {op : EngineOp} {o : Option FlowEntry} {f f' : FlowEntry}

/-- A decided flow that keeps its entry keeps it but for the time of its last event. -/
theorem of_isTerminal (h : EntryStep k op (some f) (some f')) (hterm : f.state.isTerminal = true) :
    ∃ t, f' = { f with lastSeen := t } := by
  generalize ho : some f = o, ho' : some f' = o' at h
  cases h with
  | foreign h => exact ⟨f.lastSeen, Option.some.inj (ho'.trans ho.symm)⟩
  | unallocated h hcalloc => cases ho
  | counted h hf hnew =>
    subst ho
    rw [← hf.trans (Option.getD_some), hnew] at hterm
    cases hterm
  | cached h hterm' =>
    cases ho
    cases ho'
    exact ⟨_, rfl⟩
  | swept =>
    subst ho
    obtain ⟨hf, -⟩ := Option.filter_eq_some_iff.mp ho'.symm
    exact ⟨f.lastSeen, (Option.some.inj hf).symm⟩

/-- The packets that an entry counted, against the events of its flow so far: all of them while
it is new. -/
def Counts (o : Option FlowEntry) (n : ℕ) : Prop :=
  (o = none → n = 0) ∧ ∀ f, o = some f →
    f.pktCount.toNat ≤ n ∧ (f.state.isTerminal = false → f.pktCount.toNat = n ∧ n < 8)

theorem counts {o' : Option FlowEntry} (h : EntryStep k op o o') (ho' : o'.isSome = true) {n : ℕ}
    (hn : Counts o n) : Counts o' (n + if op.isEvent k then 1 else 0) := by
  refine ⟨fun hnone => by simp [hnone] at ho', ?_⟩
  cases h with
  | foreign h =>
    rw [EngineOp.isEvent, decide_eq_false h, if_neg Bool.false_ne_true]
    exact hn.2
  | unallocated h hcalloc => cases ho'
  | @counted evt fd a _ f f' h hf hnew hcount htraffic hml hstate =>
    have hfn : f.pktCount.toNat = n := by
      cases o with
      | none =>
        rw [hf, hn.1 rfl]
        rfl
      | some g =>
        obtain rfl : f = g := hf
        exact ((hn.2 f rfl).2 (by rw [hnew]; rfl)).1
    rw [EngineOp.isEvent, decide_eq_true h, if_pos rfl]
    intro g hg
    obtain rfl := Option.some.inj hg
    rw [← hfn]
    refine ⟨hcount.le, fun hopen => ⟨hcount, ?_⟩⟩
    rcases hstate with ⟨-, hlt⟩ | hdone | hdone
    · omega
    · simp [hdone, FlowState.isTerminal] at hopen
    · simp [hdone, FlowState.isTerminal] at hopen
  | @cached evt fd a f h hterm =>
    rw [EngineOp.isEvent, decide_eq_true h, if_pos rfl]
    intro g hg
    obtain rfl := Option.some.inj hg
    refine ⟨(hn.2 f rfl).1.trans (Nat.le_succ n), fun hopen => ?_⟩
    simp [hterm] at hopen
  | swept =>
    intro g hg
    exact hn.2 g (Option.filter_eq_some_iff.mp hg).1

end EntryStep

namespace EngineRun

variable (env : Env) {w : EngineRun}

/-- The steps of a run from any reachable state refine `EntryStep`. -/
theorem entryStep_run_append (iface : Bytes) (ml dump : Bool) (ops ops' : List EngineOp)
    (op : EngineOp) (k : FlowKey) :
    EntryStep k op ((run (step env) (run (step env) (start iface ml dump) ops) ops').entry k)
      (((run (step env) (run (step env) (start iface ml dump) ops) ops').step env op).entry k) := by
  rw [← run_append]
  exact entryStep_run env iface ml dump (ops ++ ops') op k

/-- While it has an entry, a flow counts its events. -/
theorem counts_run (iface : Bytes) (ml dump : Bool) (ops ops' : List EngineOp) (k : FlowKey) :
    let w := run (step env) (start iface ml dump) ops
    w.entry k = none → w.Keeps env k ops' →
      EntryStep.Counts ((run (step env) w ops').entry k) (eventsOf k ops') := by
  intro w hnone hkeeps
  induction ops' using List.reverseRecOn with
  | nil => exact ⟨fun _ => rfl, fun f hf => by simp [hnone] at hf⟩
  | append_singleton ops' op ih =>
    obtain ⟨hkeeps, hlast⟩ := along_append.mp hkeeps
    have hstep := entryStep_run_append env iface ml dump ops ops' op k
    rw [run_concat, eventsOf, List.countP_append, List.countP_singleton]
    exact hstep.counts hlast.1 (ih hkeeps)

/-- A decided flow keeps its decision for as long as it keeps its entry. -/
theorem decided_run (iface : Bytes) (ml dump : Bool) (ops ops' : List EngineOp) (k : FlowKey)
    {f : FlowEntry} :
    let w := run (step env) (start iface ml dump) ops
    w.entry k = some f → f.state.isTerminal = true → w.Keeps env k ops' →
      ∃ t, (run (step env) w ops').entry k = some { f with lastSeen := t } := by
  intro w hf hterm hkeeps
  induction ops' using List.reverseRecOn with
  | nil => exact ⟨f.lastSeen, hf⟩
  | append_singleton ops' op ih =>
    obtain ⟨hkeeps, hlast⟩ := along_append.mp hkeeps
    obtain ⟨t, ht⟩ := ih hkeeps
    have hstep := entryStep_run_append env iface ml dump ops ops' op k
    obtain ⟨f', hf'⟩ := Option.isSome_iff_exists.mp hlast.1
    simp only [w] at ht hf'
    rw [ht, hf'] at hstep
    obtain ⟨t', rfl⟩ := hstep.of_isTerminal hterm
    refine ⟨t', ?_⟩
    rw [run_concat]
    exact hf'

/-- **The life of an entry.** In every reachable state every entry is within its budget, and
every operation does to it what `EntryStep` says. An entry that has lived through some operations
since its creation has counted all events of its flow, at most seven, while it is new. A decided
entry is the same, but for the time of its last event, until it is removed. -/
theorem flow_machine_run (iface : Bytes) (ml dump : Bool) (ops ops' : List EngineOp)
    (k : FlowKey) :
    let w := run (step env) (start iface ml dump) ops
    let w' := run (step env) w ops'
    (∀ f, w.entry k = some f → (f.state = .new ∨ f.state = .classified ∨ f.state = .gaveUp) ∧
      f.pktCount.toNat ≤ 8 ∧ f.mlNPkts.toNat ≤ f.pktCount.toNat ∧
      (f.state.isTerminal = false → f.pktCount.toNat ≤ 7)) ∧
    (∀ op, EntryStep k op (w.entry k) ((w.step env op).entry k)) ∧
    (w.entry k = none → w.Keeps env k ops' → ∀ f', w'.entry k = some f' →
      f'.pktCount.toNat ≤ eventsOf k ops' ∧
      (f'.state.isTerminal = false →
        f'.pktCount.toNat = eventsOf k ops' ∧ eventsOf k ops' ≤ 7)) ∧
    (∀ f, w.entry k = some f → f.state.isTerminal = true → w.Keeps env k ops' →
      ∃ t, w'.entry k = some { f with lastSeen := t }) := by
  intro w w'
  refine ⟨fun f hf => ?_, fun op => entryStep_run env iface ml dump ops op k,
    fun hnone hkeeps f' hf' => ?_,
    fun f hf hterm hkeeps => decided_run env iface ml dump ops ops' k hf hterm hkeeps⟩
  · have hbudget : Budgeted f := budgeted_run env iface ml dump ops f
      ((sound_run env iface ml dump ops).mem_flows hf)
    refine ⟨?_, hbudget.metered.pktCount_le, hbudget.mlNPkts_le,
      fun hopen => Nat.le_of_lt_succ (hbudget.metered.pktCount_lt hopen)⟩
    rcases hbudget.state with h | h
    · exact .inl h
    · exact .inr (by simpa [FlowState.isTerminal] using h)
  · obtain ⟨-, hcounts⟩ := counts_run env iface ml dump ops ops' k hnone hkeeps
    obtain ⟨hle, hopen⟩ := hcounts f' hf'
    exact ⟨hle, fun h => ⟨(hopen h).1, Nat.le_of_lt_succ (hopen h).2⟩⟩

end EngineRun

end NdpiObserve
