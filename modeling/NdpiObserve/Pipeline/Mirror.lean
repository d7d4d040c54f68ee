import NdpiObserve.Pipeline.MainLoop

/-!
# The two flow tables

The kernel enters a flow into its map at the first packet, the daemon into its table at the first
event. When nothing is lost in between, both have the same flows as soon as the ring buffer is
empty. The kernel never removes an entry, though, and the daemon does so in a sweep: from the first
flow on that expires, the daemon's table is smaller, and the kernel goes on with the old entry and
the old verdict.

## Main definitions

* `Pipeline.kernelKeys`, `Pipeline.daemonKeys`: the flows of the two tables.
* `Pipeline.Mirrors`: what is wanted of a step.
* `Pipeline.Tracked`: the invariant that relates the tables and the ring buffer.

## Main results

* `Pipeline.Tracked.step`: the invariant, as long as no flow expires.
* `Pipeline.mirrored_run_iff`: the runs in which the daemon's table mirrors the kernel's map.
* `Pipeline.forgotten_flow_submitted`: a flow without an entry is classified afresh.
-/

namespace NdpiObserve

open Machine

/-- The daemon finds memory for a new entry. -/
def PipelineOp.Allocates : PipelineOp → Prop
  | .deliver a => a.calloc = true
  | .packet _ | .drained | .age _ | .loop => True

instance (op : PipelineOp) : Decidable op.Allocates :=
  match op with
  | .deliver a => inferInstanceAs (Decidable (a.calloc = true))
  | .packet _ | .drained | .age _ | .loop => isTrue trivial

namespace Pipeline

/-! ### Two sets of flows -/

/-- The keys of `flow_map`. -/
def kernelKeys (w : Pipeline) : Set FlowKey := {k | (w.kernelEntry k).isSome = true}

/-- The keys of the daemon's table. -/
def daemonKeys (w : Pipeline) : Set FlowKey := {k | (w.daemonEntry k).isSome = true}

theorem mem_kernelKeys {w : Pipeline} {k : FlowKey} :
    k ∈ w.kernelKeys ↔ (w.kernelEntry k).isSome = true := Iff.rfl

theorem mem_daemonKeys {w : Pipeline} {k : FlowKey} :
    k ∈ w.daemonKeys ↔ (w.daemonEntry k).isSome = true := Iff.rfl

/-- When all events are processed, both tables have the same flows. -/
def Mirrored (w : Pipeline) : Prop := w.ring = [] → w.kernelKeys = w.daemonKeys

variable (env : Env) (fd : ℤ) {w : Pipeline} {k : FlowKey}

/-- A flow that the daemon removes has no entry and no verdict in the kernel any more. -/
def ForgetsExpired (w : Pipeline) (op : PipelineOp) : Prop :=
  ∀ k ∈ w.daemonKeys, k ∉ (w.next env fd op).daemonKeys →
    (w.next env fd op).kernelEntry k = none ∧ (w.next env fd op).verdict k = none

/-- The step leaves the tables alike, and the kernel forgets what the daemon removes. -/
def Mirrors (w : Pipeline) (op : PipelineOp) : Prop :=
  (w.next env fd op).Mirrored ∧ ForgetsExpired env fd w op

/-- The ring buffer has room for the event of a packet, and the flow map for its flow. -/
def Lossless (w : Pipeline) : PipelineOp → Prop
  | .packet p => p.reserve = true ∧
      ∀ r ∈ parsePkt p.skb, w.kernelEntry r.1 = none → ¬w.kernel.flowMap.IsFull
  | .deliver _ | .drained | .age _ | .loop => True

instance (w : Pipeline) (op : PipelineOp) : Decidable (Lossless w op) :=
  match op with
  | .packet p => inferInstanceAs (Decidable (p.reserve = true ∧
      ∀ r ∈ parsePkt p.skb, w.kernelEntry r.1 = none → ¬w.kernel.flowMap.IsFull))
  | .deliver _ | .drained | .age _ | .loop => isTrue trivial

/-- A sweep finds no idle flow. -/
def ExpiresNone (w : Pipeline) : PipelineOp → Prop
  | .age now => w.phase = .serving → ∀ k, ∀ f ∈ w.daemonEntry k, f.isIdle now = false
  | .packet _ | .deliver _ | .drained | .loop => True

/-! ### The invariant -/

/-- The kernel has an entry for a flow exactly when an event of it waits or the daemon has one. -/
structure Tracked (w : Pipeline) : Prop where
  sound : w.daemon.Sound
  mem_kernelKeys_iff : ∀ k, k ∈ w.kernelKeys ↔ w.ringOf k ≠ [] ∨ k ∈ w.daemonKeys

theorem tracked_start (iface : Bytes) (ml dump : Bool) : (start iface ml dump).Tracked := by
  refine ⟨EngineRun.sound_start iface ml dump, fun k => ?_⟩
  have hentry : (start iface ml dump).kernelEntry k = none := BoundedMap.lookup_empty k
  have hdaemon : (start iface ml dump).daemonEntry k = none := rfl
  have hring : (start iface ml dump).ringOf k = [] := rfl
  simp [mem_kernelKeys, mem_daemonKeys, hentry, hdaemon, hring]

/-- A packet that is not lost: its flow has an entry afterwards, and if it had none, an event. -/
theorem Tracked.packet (h : w.Tracked) (p : Pkt) (hlossless : Lossless w (.packet p)) :
    (w.next env fd (.packet p)).Tracked := by
  refine ⟨h.sound, fun k => ?_⟩
  have htracked := h.mem_kernelKeys_iff k
  have hdaemon : (w.next env fd (.packet p)).daemonKeys = w.daemonKeys := rfl
  rw [hdaemon]
  rcases step_packet_cases env fd w p k with ⟨-, hsame⟩ | ⟨tot, path, hparse, -, hflow, -, hring⟩
  · rw [mem_kernelKeys] at htracked ⊢
    rwa [hsame.kernelEntry, hsame.ringOf]
  · have hroom := hlossless.2 (k, tot) (by rw [hparse]; rfl)
    have hevent : ∃ evt, p.event k tot = some evt := ⟨_, if_pos hlossless.1⟩
    obtain ⟨evt, hevt⟩ := hevent
    rw [mem_kernelKeys] at htracked ⊢
    rw [hring]
    generalize hold : w.kernelEntry k = old at htracked hflow hroom
    generalize (w.next env fd (.packet p)).kernelEntry k = new at hflow
    have hkeeps : w.ringOf k ≠ [] ∨ k ∈ w.daemonKeys →
        w.ringOf k ++ path.event.toList ≠ [] ∨ k ∈ w.daemonKeys :=
      Or.imp_left fun hne hnil => hne (List.append_eq_nil_iff.mp hnil).1
    cases hflow with
    | first =>
      -- a new flow: its first event waits
      refine iff_of_true rfl (.inl ?_)
      rw [PktPath.event, hevt]
      simp
    | unstored hfull => exact absurd hfull (hroom rfl)
    | decided | learned | gaveUp | pending =>
      exact iff_of_true rfl (hkeeps (htracked.mp rfl))

/-- With memory for a new entry, every event has one. -/
theorem exists_obtain (e : Engine) (evt : FlowEvent) {a : Answers} (halloc : a.calloc = true) :
    ∃ f, e.obtain evt a = some f := by
  rw [Engine.obtain, halloc]
  cases hl : flowTableLookup e.flows evt.key with
  | some f => exact ⟨f, by rw [FlowTable.getOrCreate_of_some hl]⟩
  | none => exact ⟨_, by rw [FlowTable.getOrCreate_of_none hl, if_pos rfl]⟩

/-- With memory for a new entry, an event leaves its flow in the daemon's table, and no flow leaves
the table. -/
theorem daemonKeys_deliver (hw : w.daemon.Sound) {a : Answers} (halloc : a.calloc = true)
    {evt : FlowEvent} {rest : List FlowEvent} (hphase : w.phase = .draining)
    (hring : w.ring = evt :: rest) :
    (w.next env fd (.deliver a)).daemonKeys = insert evt.key w.daemonKeys := by
  have hdaemon : (w.next env fd (.deliver a)).daemon = w.daemon.step env (.process evt fd a) := by
    rw [next, step, hphase, hring]
  obtain ⟨f, ho⟩ := exists_obtain w.daemon.engine evt halloc
  ext k
  rw [mem_daemonKeys, daemonEntry, hdaemon, hw.lookup_step_process env fd ho k,
    Set.mem_insert_iff, mem_daemonKeys, daemonEntry]
  by_cases hk : evt.key = k
  · rw [if_pos hk]
    exact iff_of_true rfl (.inl hk.symm)
  · rw [if_neg hk, or_iff_right (Ne.symm hk)]

theorem Tracked.deliver (h : w.Tracked) {a : Answers} (halloc : a.calloc = true) :
    (w.next env fd (.deliver a)).Tracked ∧
      w.daemonKeys ⊆ (w.next env fd (.deliver a)).daemonKeys := by
  have hsound := step_sound env fd h.sound (.deliver a)
  rcases step_deliver_cases env fd h.sound a with
    heq | ⟨evt, rest, hphase, hring, hring', -, -, hkernel⟩
  · rw [heq]
    exact ⟨h, subset_rfl⟩
  · have hkeys := daemonKeys_deliver env fd h.sound halloc hphase hring
    have hentry (k : FlowKey) : (w.next env fd (.deliver a)).kernelEntry k = w.kernelEntry k := by
      rcases hkernel with ⟨-, hkernel⟩ | ⟨f, -, -, hkernel⟩
      · rw [kernelEntry, hkernel, kernelEntry]
      · rw [kernelEntry, hkernel, kernelEntry]
        split <;> rfl
    refine ⟨⟨hsound, fun k => ?_⟩, by rw [hkeys]; exact Set.subset_insert _ _⟩
    have htracked := h.mem_kernelKeys_iff k
    rw [mem_kernelKeys, ringOf, hring, List.filter_cons] at htracked
    rw [mem_kernelKeys, hentry, htracked, hkeys, Set.mem_insert_iff, ringOf, hring']
    by_cases hk : evt.key = k
    · simp [hk]
    · simp [hk, Ne.symm hk]

/-- A sweep that finds no idle flow. -/
theorem Tracked.age (h : w.Tracked) {now : ℤ} (hnone : ExpiresNone w (.age now)) :
    (w.next env fd (.age now)).Tracked ∧
      w.daemonKeys ⊆ (w.next env fd (.age now)).daemonKeys := by
  rcases step_age_daemon env fd h.sound now with heq | ⟨hphase, d, heq, hd, -, hlookup⟩
  · rw [heq]
    exact ⟨h, subset_rfl⟩
  · have hkeep (k : FlowKey) : flowTableLookup d.engine.flows k = w.daemonEntry k := by
      rw [hlookup k]
      cases hf : w.daemonEntry k with
      | none => rfl
      | some f => simp [Option.filter, hnone hphase k f hf]
    rw [heq]
    have hkeys : ({ w with daemon := d } : Pipeline).daemonKeys = w.daemonKeys := by
      ext k
      rw [mem_daemonKeys, daemonEntry, hkeep, mem_daemonKeys]
    refine ⟨⟨hd, fun k => ?_⟩, hkeys.ge⟩
    have htracked := h.mem_kernelKeys_iff k
    rw [mem_kernelKeys, kernelEntry, ringOf] at htracked ⊢
    rw [hkeys]
    exact htracked

/-- **One step.** As long as nothing is lost and no flow expires, the kernel has an entry for a flow
exactly when an event of it waits or the daemon has one, and no flow leaves the daemon's table. -/
theorem Tracked.step (h : w.Tracked) (op : PipelineOp) (hlossless : Lossless w op)
    (halloc : op.Allocates) (hnone : ExpiresNone w op) :
    (w.next env fd op).Tracked ∧ w.daemonKeys ⊆ (w.next env fd op).daemonKeys := by
  cases op with
  | packet p => exact ⟨h.packet env fd p hlossless, subset_rfl⟩
  | deliver a => exact h.deliver env fd halloc
  | age now => exact h.age env fd hnone
  | drained =>
    rcases step_drained_cases env fd w with heq | ⟨-, heq⟩
    · rw [heq]
      exact ⟨h, subset_rfl⟩
    · rw [heq]
      exact ⟨⟨h.sound, h.mem_kernelKeys_iff⟩, subset_rfl⟩
  | loop => exact ⟨⟨h.sound, h.mem_kernelKeys_iff⟩, subset_rfl⟩

theorem Tracked.mirrored (h : w.Tracked) : w.Mirrored := by
  intro hring
  ext k
  have hnone : w.ringOf k = [] := by rw [ringOf, hring, List.filter_nil]
  rw [h.mem_kernelKeys_iff, hnone, ne_eq, eq_self_iff_true, not_true, false_or]

/-- The kernel forgets no flow, so a sweep that removes one leaves the tables different. -/
theorem Tracked.expiresNone (h : w.Tracked) {op : PipelineOp}
    (hforgets : ForgetsExpired env fd w op) : ExpiresNone w op := by
  cases op with
  | packet _ | deliver _ | drained | loop => trivial
  | age now =>
    intro hphase k f hf
    by_contra hidle
    have hmem : k ∈ w.daemonKeys := by
      rw [mem_daemonKeys, hf]
      rfl
    have heq : w.next env fd (.age now) =
        { w with daemon := w.daemon.step env (.age now) } := by
      rw [next, Pipeline.step, if_pos hphase]
    have hswept := h.sound.lookup_step_age env now k
    rw [← daemonEntry, Option.mem_def.mp hf] at hswept
    rw [ForgetsExpired, heq] at hforgets
    generalize w.daemon.step env (.age now) = d at hforgets hswept
    have hremoved : k ∉ ({ w with daemon := d } : Pipeline).daemonKeys := by
      rw [mem_daemonKeys, daemonEntry, hswept]
      simp [Option.filter, Bool.eq_true_of_not_eq_false hidle]
    have hkernel := (h.mem_kernelKeys_iff k).mpr (.inr hmem)
    have hforgotten := (hforgets k hmem hremoved).1
    rw [kernelEntry] at hforgotten
    rw [mem_kernelKeys, kernelEntry, hforgotten] at hkernel
    cases hkernel

/-! ### Runs -/

/-- **The mirror.** In a run that loses no packet and in which the daemon finds memory for its
entries, the tables have the same flows whenever all events are processed, and the kernel forgets
the flows that expire, if and only if no sweep finds an idle flow. -/
theorem mirrored_run_iff (iface : Bytes) (ml dump : Bool) (ops : List PipelineOp)
    (hlossless : Along (next env fd) Lossless (start iface ml dump) ops)
    (halloc : ∀ op ∈ ops, op.Allocates) :
    Along (next env fd) (Mirrors env fd) (start iface ml dump) ops ↔
      Along (next env fd) ExpiresNone (start iface ml dump) ops := by
  suffices hrun : ∀ w : Pipeline, w.Tracked → Along (next env fd) Lossless w ops →
      (Along (next env fd) (Mirrors env fd) w ops ↔ Along (next env fd) ExpiresNone w ops) from
    hrun _ (tracked_start iface ml dump) hlossless
  clear hlossless
  induction ops with
  | nil => exact fun _ _ _ => Iff.rfl
  | cons op ops ih =>
    intro w h hlossless
    rw [along_cons] at hlossless
    specialize ih fun op hop => halloc op (List.mem_cons_of_mem _ hop)
    have hstep (hnone : ExpiresNone w op) :=
      h.step env fd op hlossless.1 (halloc op List.mem_cons_self) hnone
    rw [along_cons, along_cons]
    constructor
    · rintro ⟨⟨-, hforgets⟩, hrest⟩
      have hnone := h.expiresNone env fd hforgets
      exact ⟨hnone, (ih _ (hstep hnone).1 hlossless.2).mp hrest⟩
    · rintro ⟨hnone, hrest⟩
      obtain ⟨htracked, hsubset⟩ := hstep hnone
      exact ⟨⟨htracked.mirrored, fun k hk hremoved => absurd (hsubset hk) hremoved⟩,
        (ih _ htracked hlossless.2).mpr hrest⟩

/-- A packet of a flow that the kernel has forgotten is submitted. -/
theorem forgotten_flow_submitted (hnone : w.kernelEntry k = none) (p : Pkt) :
    ∀ path ∈ pathsOf k [(w.step env fd (.packet p)).2], ∃ evt, path = .ring evt := by
  rcases step_packet_cases env fd w p k with ⟨hpaths, -⟩ | ⟨tot, path, -, hpaths, hflow, -⟩
  · rw [hpaths]
    rintro path ⟨⟩
  · rw [hpaths]
    intro path' hpath'
    obtain rfl := List.mem_singleton.mp hpath'
    rw [hnone] at hflow
    generalize (w.next env fd (.packet p)).kernelEntry k = new at hflow
    cases hflow with
    | first | unstored => exact ⟨_, rfl⟩

/-- A flow that nDPI knows, and a sweep `now` seconds after its packet. -/
def sweptFlow (now : ℤ) : List PipelineOp :=
  [.packet udpPkt, .deliver { detection := { app := 5 } }, .drained, .age now]

theorem lossless_sweptFlow (now : ℤ) :
    Along (next default 3) Lossless (start [] true false) (sweptFlow now) :=
  ⟨by decide +kernel, trivial, trivial, trivial, trivial⟩

/-- The sweep keeps the flow for half a minute. -/
theorem mirrored_run_kept :
    Along (next default 3) (Mirrors default 3) (start [] true false) (sweptFlow 30) := by
  refine (mirrored_run_iff default 3 [] true false (sweptFlow 30) (lossless_sweptFlow 30)
    (by decide)).mpr ⟨trivial, trivial, trivial, fun _ k f hf => ?_, trivial⟩
  -- the only flow of the table
  have hkeys := daemonKeys_deliver default 3
    (w := (start [] true false).next default 3 (.packet udpPkt))
    (EngineRun.sound_start [] true false) (a := { detection := { app := 5 } }) rfl rfl rfl
  have hmem : k ∈ daemonKeys _ := Option.isSome_iff_exists.mpr ⟨f, hf⟩
  have hmem' := hkeys.subset hmem
  rw [Set.mem_insert_iff, mem_daemonKeys] at hmem'
  obtain rfl : k = udpKey := hmem'.resolve_right Bool.false_ne_true
  revert f
  decide +kernel

/-- The sweep removes the flow one second later, and the kernel keeps its entry and its verdict. -/
theorem swept_flow_not_mirrored : ¬ ∀ (env : Env) (fd : ℤ) (iface : Bytes) (ml dump : Bool)
    (ops : List PipelineOp), Along (next env fd) Lossless (start iface ml dump) ops →
      Along (next env fd) (Mirrors env fd) (start iface ml dump) ops := by
  intro h
  obtain ⟨-, -, -, ⟨-, hforgets⟩, -⟩ := h default 3 [] true false (sweptFlow 31)
    (lossless_sweptFlow 31)
  have hstart := tracked_start [] true false
  have hpacket := hstart.packet default 3 udpPkt (lossless_sweptFlow 31).1
  have hdeliver := (hpacket.deliver default 3 (a := { detection := { app := 5 } }) rfl).1
  have hdrained := (hdeliver.step default 3 .drained trivial trivial trivial).1
  have hnone := hdrained.expiresNone default 3 hforgets (by decide +kernel) udpKey
  revert hnone
  decide +kernel

end Pipeline

end NdpiObserve
