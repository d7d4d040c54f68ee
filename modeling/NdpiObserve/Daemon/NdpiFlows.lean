import NdpiObserve.Daemon.FlowEndings

/-!
# The nDPI flow structures

An entry gets its nDPI flow structure with its first captured packet and keeps it until nDPI or
the last resort decides the flow, or until it leaves the table. Every structure that was allocated
is freed once, at the latest when the engine is shut down. It is freed with the decision unless a
packet without captured payload ends the flow.

## Main definitions

* `EngineRun.allocated`, `EngineRun.freed`, `EngineRun.held`: the structures of a run.
* `EngineRun.HeldOpen`: only open flows hold one.

## Main results

* `EngineRun.allocated_run`: what was allocated is freed or held.
* `EngineRun.heldOpen_run_iff`: in which runs only open flows hold a structure.
-/

namespace NdpiObserve

open Machine

/-- The structure that the effect allocates. -/
def Effect.malloc : Effect → Option NdpiFlowPtr
  | .ndpiFlowMalloc p => some p
  | _ => none

/-- The structure that the effect frees. -/
def Effect.free : Effect → Option NdpiFlowPtr
  | .ndpiFlowFree p => some p
  | _ => none

/-- The structures that are allocated and those that are freed, in order. -/
structure NdpiFlowTraffic where
  allocated : List NdpiFlowPtr
  freed : List NdpiFlowPtr

/-- The structures that the entries hold. -/
def heldBy (s : Multiset FlowEntry) : Multiset NdpiFlowPtr :=
  (s.map fun f => (f.ndpiFlow.toList : Multiset NdpiFlowPtr)).sum

theorem heldBy_cons (f : FlowEntry) (s : Multiset FlowEntry) :
    heldBy (f ::ₘ s) = f.ndpiFlow.toList + heldBy s := by
  rw [heldBy, Multiset.map_cons, Multiset.sum_cons, heldBy]

theorem heldBy_add (s t : Multiset FlowEntry) : heldBy (s + t) = heldBy s + heldBy t := by
  rw [heldBy, Multiset.map_add, Multiset.sum_add, heldBy, heldBy]

/-- The structures of the entries of a list, in order. -/
theorem heldBy_coe (l : List FlowEntry) :
    heldBy l = (l.flatMap fun f => f.ndpiFlow.toList : List NdpiFlowPtr) := by
  induction l with
  | nil => rfl
  | cons f l ih => rw [← Multiset.cons_coe, heldBy_cons, ih, List.flatMap_cons, Multiset.coe_add]

/-! ### One call -/

namespace Call

/-- The allocations and releases of a call are among its calls outside. -/
theorem filterMap_outside (c : Call) {g : Effect → Option NdpiFlowPtr}
    (hg : ∀ x, x.isOutside = false → g x = none) :
    c.effects.filterMap g = c.outside.1.filterMap g := by
  rw [outside, List.filterMap_filter]
  refine List.filterMap_congr fun x _ => ?_
  cases h : x.isOutside with
  | true => rfl
  | false => exact hg x h

theorem malloc_of_not_isOutside (x : Effect) (h : x.isOutside = false) : x.malloc = none := by
  cases x <;> first | rfl | cases h

theorem free_of_not_isOutside (x : Effect) (h : x.isOutside = false) : x.free = none := by
  cases x <;> first | rfl | cases h

@[simp] theorem malloc_freeCalls (ptr : Option NdpiFlowPtr) :
    (freeCalls ptr).filterMap Effect.malloc = [] := by
  cases ptr <;> rfl

@[simp] theorem free_freeCalls (ptr : Option NdpiFlowPtr) :
    (freeCalls ptr).filterMap Effect.free = ptr.toList := by
  cases ptr <;> rfl

@[simp] theorem malloc_publishCalls (fd : ℤ) (k : FlowKey) (app : UInt16) :
    (publishCalls fd k app).filterMap Effect.malloc = [] := by
  rw [publishCalls]
  split <;> rfl

@[simp] theorem free_publishCalls (fd : ℤ) (k : FlowKey) (app : UInt16) :
    (publishCalls fd k app).filterMap Effect.free = [] := by
  rw [publishCalls]
  split <;> rfl

@[simp] theorem malloc_lastResortCalls (env : Env) (ml : Bool) (f : FlowEntry) :
    (lastResortCalls env ml f).filterMap Effect.malloc = [] := by
  rw [lastResortCalls, modelCalls]
  split_ifs <;> rfl

@[simp] theorem free_lastResortCalls (env : Env) (ml : Bool) (f : FlowEntry) :
    (lastResortCalls env ml f).filterMap Effect.free = [] := by
  rw [lastResortCalls, modelCalls]
  split_ifs <;> rfl

@[simp] theorem free_scanCalls (evt : FlowEvent) (a : Answers) (f : FlowEntry) :
    (scanCalls evt a f).filterMap Effect.free = [] := by
  rw [scanCalls]
  split
  · cases a.ndpiMalloc <;> rfl
  · rfl

/-- The scan allocates the structure that the entry lacks. -/
theorem malloc_scanCalls (evt : FlowEvent) (a : Answers) (f : FlowEntry) :
    (scanCalls evt a f).filterMap Effect.malloc ++ f.ndpiFlow.toList =
      (f.ndpiFlow.or a.ndpiMalloc).toList := by
  rw [scanCalls]
  cases f.ndpiFlow with
  | some p => rfl
  | none => cases a.ndpiMalloc <;> rfl

/-- **The structure of a call.** What a call allocates and what its entry held before is what it
frees and what its entry holds after it. -/
theorem process_conserves (env : Env) (evt : FlowEvent) (fd : ℤ) (a : Answers) (e : Engine)
    (f : FlowEntry) :
    let c := Call.process env evt fd a { engine := e, flow := f }
    c.effects.filterMap Effect.malloc ++ f.ndpiFlow.toList =
      c.effects.filterMap Effect.free ++ c.flow.ndpiFlow.toList := by
  intro c
  have hptr : c.flow.ndpiFlow = _ := process_ndpiFlow env evt fd a { engine := e, flow := f }
  have houtside : c.outside.1 = _ := process_outside env evt fd a { engine := e, flow := f }
  have hscan := malloc_scanCalls evt a f
  rw [filterMap_outside c malloc_of_not_isOutside, filterMap_outside c free_of_not_isOutside,
    houtside, hptr]
  dsimp only
  cases f.exit evt a with
  | cached | emptyPending | allocFailed | emptyGaveUp => simp [outside, Exit.hasTail]
  | pending => simpa [outside, Exit.hasTail] using hscan
  | classified | lastResort => simpa [outside, Exit.hasTail] using hscan

end Call

/-! ### Runs -/

namespace EngineRun

variable (env : Env) {w : EngineRun}

/-- The structures that an operation allocates and frees. -/
def traffic (w : EngineRun) : EngineOp → NdpiFlowTraffic
  | .process evt fd a =>
    let effects := (ndpiEngineProcess env w.engine evt fd a).2
    ⟨effects.filterMap Effect.malloc, effects.filterMap Effect.free⟩
  | .age now => ⟨[], (ndpiEngineAge env w.engine now).2⟩

def allocated (w : EngineRun) (op : EngineOp) : List NdpiFlowPtr := (w.traffic env op).allocated

def freed (w : EngineRun) (op : EngineOp) : List NdpiFlowPtr := (w.traffic env op).freed

/-- The structures that the entries of the table hold. -/
def held (w : EngineRun) : Multiset NdpiFlowPtr := heldBy w.engine.flows.entries

theorem ndpiEngineAge_of_eq {e : Engine} {now : ℤ} {r : FlowTable × Engine × List NdpiFlowPtr}
    (h : flowTableAge e.flows now (some (onFlowExpire env)) e = r) :
    ndpiEngineAge env e now = ({ r.2.1 with flows := r.1 }, r.2.2) := by
  subst h
  rfl

/-- The sweep frees the structures of the idle entries. -/
theorem ndpiEngineAge_freed (e : Engine) (now : ℤ) : (ndpiEngineAge env e now).2 =
    (e.flows.idle now).flatMap fun f => f.ndpiFlow.toList := by
  rw [ndpiEngineAge_of_eq env (flowTableAge_eq now (some (onFlowExpire env)) e.flows e)]

/-- **One step.** What an operation allocates and what was held before is what it frees and what
is held after it. -/
theorem Sound.conserves (hw : w.Sound) (op : EngineOp) :
    (w.allocated env op : Multiset NdpiFlowPtr) + w.held =
      w.freed env op + (w.step env op).held := by
  cases op with
  | age now =>
    have hfreed : w.freed env (.age now) =
        (w.engine.flows.idle now).flatMap fun f => f.ndpiFlow.toList := by
      rw [freed, traffic, ndpiEngineAge_freed]
    have hentries : (w.step env (.age now)).engine.flows = w.engine.flows.sweep now := by
      rw [step_age]
    rw [allocated, traffic, hfreed, held, held, hentries, ← heldBy_coe,
      FlowTable.entries_eq_sweep_add_idle w.engine.flows now, heldBy_add, add_comm (heldBy _)]
    exact zero_add _
  | process evt fd a =>
    cases ho : w.engine.obtain evt a with
    | none =>
      have hstep := step_process_of_none env fd ho
      rw [allocated, freed, traffic, ndpiEngineProcess_of_none env fd ho, hstep, held, held,
        Engine.observeDns_flows]
      rfl
    | some f =>
      obtain ⟨-, R, -, hR, hR'⟩ := hw.exists_entries_step env fd ho
      have hentered : (w.entered evt a).held = w.held := by
        rcases entered_cases ho with ⟨-, hb⟩ | ⟨rfl, -, hb⟩
        · rw [held, hb, held]
        · rw [held, hb, FlowTable.entries_insert, heldBy_cons, held]
          exact zero_add _
      have hcall := Call.process_conserves env evt fd a (w.engine.bodyStart evt a) f
      rw [allocated, freed, traffic, ndpiEngineProcess_of_some env fd ho, ← hentered, held, hR,
        held, hR', heldBy_cons, heldBy_cons, ← add_assoc, ← add_assoc, Multiset.coe_add,
        Multiset.coe_add]
      exact congrArg (fun l : List NdpiFlowPtr => (l : Multiset NdpiFlowPtr) + heldBy R) hcall

/-- **The ledger of a run.** What a run has allocated is what it has freed and what it holds. -/
theorem allocated_run (iface : Bytes) (ml dump : Bool) (ops : List EngineOp) :
    let w₀ := start iface ml dump
    (emitted (step env) (allocated env) w₀ ops : Multiset NdpiFlowPtr) =
      emitted (step env) (freed env) w₀ ops + (run (step env) w₀ ops).held := by
  intro w₀
  have hzero : w₀.held = 0 := by
    rw [held, entries_start]
    rfl
  have hrun := conserved_emitted (P := Sound) held (fun _ op hw => hw.step env op)
    (fun _ op hw => hw.conserves env op) (sound_start iface ml dump) ops
  rw [hzero, add_zero] at hrun
  exact hrun

/-- Shutting the engine down frees what it holds. -/
theorem coe_destroy (e : Engine) :
    ((ndpiEngineDestroy e).2 : Multiset NdpiFlowPtr) = heldBy e.flows.entries := by
  simp only [ndpiEngineDestroy, flowTableDestroy, FlowTable.entries]
  rw [← ChainedTable.coe_flatMap_finRange, heldBy_coe, List.flatMap_assoc]

/-! ### Decided flows -/

/-- No decided entry holds an nDPI flow structure. -/
def HeldOpen (w : EngineRun) : Prop :=
  ∀ k f, w.entry k = some f → f.state.isTerminal = true → f.ndpiFlow = none

/-- The operation is not a packet without captured payload that ends a flow which holds an nDPI
flow structure. -/
def EndsEmptyHanded (w : EngineRun) : EngineOp → Prop
  | .process evt _ _ => ∀ f, w.entry evt.key = some f → f.ndpiFlow ≠ none →
    f.state.isTerminal = false → evt.actualDataLen = 0 → f.pktCount + 1 < flowMaxClassifyPkts
  | .age _ => True

/-- The entry of a call holds a structure after the decision on one exit alone. -/
theorem ndpiFlow_body (w : EngineRun) (evt : FlowEvent) (fd : ℤ) (a : Answers) {f : FlowEntry}
    (hf : f.state.isTerminal = true → f.ndpiFlow = none) :
    ((w.body env evt fd a f).flow.state.isTerminal = true →
        (w.body env evt fd a f).flow.ndpiFlow = none) ↔
      (f.exit evt a = .emptyGaveUp → f.ndpiFlow = none) := by
  obtain ⟨-, hfail, -⟩ := data_of_exit f evt a
  rw [body, Call.process_isTerminal, Call.process_ndpiFlow]
  dsimp only
  cases hexit : f.exit evt a with
  | cached =>
    have hterm := Call.exit_eq_cached_iff.mp hexit
    simp [Exit.hasTail, hf hterm]
  | emptyPending | pending =>
    have hcached : f.exit evt a = .cached ↔ f.state.isTerminal = true := Call.exit_eq_cached_iff
    have hopen : f.state.isTerminal = false := by
      rw [Bool.eq_false_iff, ne_eq, ← hcached, hexit]
      exact Exit.noConfusion
    simp [hopen, Exit.decides]
  | allocFailed => simp [Exit.hasTail, (hfail hexit).2.1]
  | emptyGaveUp => simp [Exit.hasTail, Exit.decides]
  | classified | lastResort => simp [Exit.hasTail]

/-- The condition on the entry of the call. -/
theorem endsEmptyHanded_process_iff {evt : FlowEvent} {fd : ℤ} {a : Answers} {f : FlowEntry}
    (h : w.engine.obtain evt a = some f) :
    w.EndsEmptyHanded (.process evt fd a) ↔ (f.exit evt a = .emptyGaveUp → f.ndpiFlow = none) := by
  have hexit : f.exit evt a = .emptyGaveUp ↔ f.state.isTerminal = false ∧
      evt.actualDataLen = 0 ∧ ¬ f.pktCount + 1 < flowMaxClassifyPkts := by
    rw [FlowEntry.exit, UInt8.not_lt]
    split_ifs <;> simp_all
  rw [hexit, EndsEmptyHanded]
  rcases entered_cases h with ⟨hl, -⟩ | ⟨rfl, hl, -⟩
  · rw [show w.entry evt.key = some f from hl]
    constructor
    · rintro hspares ⟨hopen, hdata, hlast⟩
      by_contra hholds
      exact hlast (hspares f rfl hholds hopen hdata)
    · rintro hspares g hg hholds hopen hdata
      obtain rfl := Option.some.inj hg
      by_contra hlast
      exact hholds (hspares ⟨hopen, hdata, hlast⟩)
  · rw [show w.entry evt.key = none from hl]
    exact iff_of_true (fun g hg => absurd hg.symm (Option.some_ne_none g)) fun _ => rfl

/-- **One step.** It keeps the structures with the open flows exactly if it meets the
condition. -/
theorem Sound.heldOpen_step_iff (hw : w.Sound) (h : w.HeldOpen) (op : EngineOp) :
    (w.step env op).HeldOpen ↔ w.EndsEmptyHanded op := by
  cases op with
  | age now =>
    refine iff_of_true (fun k f hf hterm => ?_) trivial
    have hage : (w.step env (.age now)).entry k = (w.entry k).filter fun f => !f.isIdle now :=
      hw.lookup_step_age env now k
    rw [hage] at hf
    exact h k f (Option.filter_eq_some_iff.mp hf).1 hterm
  | process evt fd a =>
    cases ho : w.engine.obtain evt a with
    | none =>
      have hsame (k : FlowKey) : (w.step env (.process evt fd a)).entry k = w.entry k :=
        lookup_step_process_of_none env fd ho k
      have hl : w.entry evt.key = none := (w.engine.obtain_eq_none_iff.mp ho).1
      refine iff_of_true (fun k f hf => ?_) fun f hf => ?_
      · rw [hsame] at hf
        exact h k f hf
      · rw [hl] at hf
        cases hf
    | some f =>
      have hf : f.state.isTerminal = true → f.ndpiFlow = none := by
        rcases entered_cases ho with ⟨hl, -⟩ | ⟨rfl, -, -⟩
        · exact h evt.key f hl
        · exact fun _ => rfl
      have hlookup (k : FlowKey) : (w.step env (.process evt fd a)).entry k =
          if evt.key = k then some (w.body env evt fd a f).flow else w.entry k :=
        hw.lookup_step_process env fd ho k
      rw [endsEmptyHanded_process_iff ho, ← ndpiFlow_body env w evt fd a hf]
      constructor
      · exact fun hnext => hnext evt.key _ ((hlookup evt.key).trans (if_pos rfl))
      · intro hbody k g hg
        rw [hlookup] at hg
        split at hg
        · obtain rfl := Option.some.inj hg
          exact hbody
        · exact h k g hg

/-- **The structures of decided flows.** In every state of a run only open flows hold an nDPI flow
structure if and only if no packet without captured payload ends a flow that holds one. In every
run, what was allocated is freed or held, and shutting the engine down frees the rest. -/
theorem heldOpen_run_iff (iface : Bytes) (ml dump : Bool) (ops : List EngineOp) :
    let w₀ := start iface ml dump
    let w := run (step env) w₀ ops
    (Along (step env) (fun w op => (w.step env op).HeldOpen) w₀ ops ↔
      Along (step env) EndsEmptyHanded w₀ ops) ∧
    (emitted (step env) (allocated env) w₀ ops : Multiset NdpiFlowPtr) =
      emitted (step env) (freed env) w₀ ops + w.held ∧
    (emitted (step env) (allocated env) w₀ ops : Multiset NdpiFlowPtr) =
      emitted (step env) (freed env) w₀ ops + (ndpiEngineDestroy w.engine).2 := by
  intro w₀ w
  have hledger := allocated_run env iface ml dump ops
  refine ⟨?_, hledger, hledger.trans (congrArg _ (coe_destroy w.engine).symm)⟩
  have hall (w : EngineRun) (hw : w.Sound) (h : w.HeldOpen) (ops : List EngineOp) :
      Along (step env) (fun w op => (w.step env op).HeldOpen) w ops ↔
        Along (step env) EndsEmptyHanded w ops := by
    induction ops generalizing w with
    | nil => exact Iff.rfl
    | cons op ops ih =>
      rw [along_cons, along_cons, ← hw.heldOpen_step_iff env h op]
      exact and_congr_right fun hnext => ih _ (hw.step env op) hnext
  exact hall w₀ (sound_start iface ml dump) (fun k f hf => nomatch hf) ops

/-- A packet without payload ends a flow that has had one with payload, and the structure of the
flow is not freed. -/
theorem ended_flow_holds :
    ¬∀ (env : Env) (iface : Bytes) (ml dump : Bool) (ops : List EngineOp),
      let w₀ := start iface ml dump
      let w := run (step env) w₀ ops
      w.HeldOpen ∧
        (emitted (step env) (allocated env) w₀ ops : Multiset NdpiFlowPtr) =
          emitted (step env) (freed env) w₀ ops + (ndpiEngineDestroy w.engine).2 := by
  intro h
  let ops : List EngineOp := .process udpEvent 3 {} :: List.replicate 7 (.process emptyEvent 3 {})
  have hheld := (h default [] true false ops).1
  have hentry : ((run (step default) (start [] true false) ops).entry udpEvent.key).map
      (fun f => (f.state, f.ndpiFlow)) = some (.gaveUp, some 0) := by
    decide +kernel
  obtain ⟨f, hf, hview⟩ := Option.map_eq_some_iff.mp hentry
  obtain ⟨hstate, hptr⟩ := Prod.mk.inj hview
  have hnone := hheld udpEvent.key f hf (by rw [hstate]; rfl)
  rw [hptr] at hnone
  cases hnone

end EngineRun

end NdpiObserve
