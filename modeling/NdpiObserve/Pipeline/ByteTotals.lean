import NdpiObserve.Pipeline.MergedFlows
import NdpiObserve.Pipeline.Mirror
import NdpiObserve.Pipeline.Verdicts

/-!
# Bytes on both sides

The bytes of a packet are counted by the daemon, while its flow is classified, or by the kernel,
from the verdict on. The daemon adds the total length in the IP header, and the kernel adds
`skb->len`, which includes the Ethernet header. So the merged bytes of an application depend on the
packet with which the kernel takes over.

## Main definitions

* `Kernel.Tally`, `EngineRun.Tally`: what each side has counted of a single flow.
* `Pipeline.Timely`: every event is processed while its flow is undecided.
* `Pipeline.shownBytes`: the merged bytes of an application.

## Main results

* `Pipeline.Accounted.shownBytes_eq`: the merged bytes, packet by packet.
* `Pipeline.shownBytes_eq_iff`: when two runs with the same packets show the same bytes.
-/

namespace NdpiObserve

open Machine Ledger

/-! ### Packets -/

/-- `ip_tot`. -/
def Pkt.ipTot (p : Pkt) : UInt16 := ((parsePkt p.skb).map Prod.snd).getD 0

/-- What the daemon adds for a packet: the total length in its IP header. -/
def Pkt.ipBytes (p : Pkt) : UInt64 := p.ipTot.toUInt32.toUInt64

/-- What is read of the bytes that the kernel adds for a packet: the counters of at most 256 CPUs
are read. -/
def Pkt.readBytes (ncpu : ℕ) (p : Pkt) : UInt64 := if p.cpu < min ncpu 256 then p.bytes else 0

/-- The packets of a run. -/
def PipelineOp.packets : List PipelineOp → List Pkt
  | [] => []
  | .packet p :: ops => p :: packets ops
  | .deliver _ :: ops | .drained :: ops | .age _ :: ops | .loop :: ops => packets ops

theorem Pkt.pktLen_event {p : Pkt} {k : FlowKey} {tot : UInt16} {evt : FlowEvent}
    (hparse : parsePkt p.skb = some (k, tot)) (h : p.event k tot = some evt) :
    evt.pktLen = p.ipTot.toUInt32 := by
  have htot : p.ipTot = tot := by rw [ipTot, hparse]; rfl
  rw [event] at h
  split at h
  · rw [← Option.some.inj h, sendToRingbuf, htot]
    split <;> rfl
  · cases h

/-! ### The kernel -/

theorem fst_share_counted (k : FlowKey) (p : Pkt) (app : UInt16) (cpu : ℕ)
    (i : Fin appCounterEntries) : (PktOut.share ⟨k, p.cpu, p.bytes, .counted app⟩ cpu i).1 =
      if p.cpu = cpu ∧ app.toNat = i.val then p.bytes else 0 := by
  dsimp only [PktOut.share, PktPath.app]
  split <;> rfl

/-- What the kernel has counted of a single flow: as long as its entry is open, nothing; then each
packet, under the application of the entry. -/
structure Kernel.Tally (k : FlowKey) (counted : List Pkt) (s : Kernel) : Prop where
  entry : EntryAgrees (s.verdictMap.lookup k) (s.flowMap.lookup k)
  counted_eq_nil : (∀ fs ∈ s.flowMap.lookup k, fs.state.isTerminal = false) → counted = []
  bytes_eq : (∀ fs ∈ s.flowMap.lookup k, fs.state ≠ .gaveUp) → ∀ cpu i,
    (s.appCounters cpu i).bytes = (counted.map fun p =>
      if p.cpu = cpu ∧ (s.flowMap.lookup k).any (fun fs => fs.appId.toNat = i.val) then p.bytes
      else 0).sum

namespace Kernel.Tally

variable {k : FlowKey} {counted : List Pkt} {s : Kernel}

/-- A packet of the flow is submitted, and then it is not behind a counted one, or counted. -/
theorem packet (h : s.Tally k counted) (p : Pkt) (evt : Option FlowEvent) :
    let r := processFlow s p k evt
    (r.2 = .ring evt ∧ counted = [] ∧ r.1.Tally k counted) ∨
      (∃ app, r.2 = .counted app) ∧ r.1.Tally k (counted ++ [p]) := by
  intro r
  have hflow : FlowStep p evt s.flowMap.IsFull (s.verdictMap.lookup k) (s.flowMap.lookup k) r.2
      (r.1.flowMap.lookup k) := processFlow_flowStep s p k evt
  have hverdict : r.1.verdictMap = s.verdictMap := processFlow_verdictMap s p k evt
  have hbytes (cpu : ℕ) (i : Fin appCounterEntries) : (r.1.appCounters cpu i).bytes =
      (s.appCounters cpu i).bytes + (PktOut.share ⟨k, p.cpu, p.bytes, r.2⟩ cpu i).1 :=
    congrArg Prod.fst (counted_processFlow s p k evt cpu i)
  have hentry := hflow.entryAgrees h.entry
  rw [← hverdict] at hentry
  obtain ⟨-, hnil, hsum⟩ := h
  generalize s.flowMap.lookup k = old at hflow hnil hsum
  generalize hnew : r.1.flowMap.lookup k = new at hflow hentry
  generalize r.2 = path at hflow hbytes
  have htally {c : List Pkt} (hc : (∀ fs ∈ new, fs.state.isTerminal = false) → c = [])
      (hb : (∀ fs ∈ new, fs.state ≠ .gaveUp) → ∀ cpu i, (r.1.appCounters cpu i).bytes =
        (c.map fun p => if p.cpu = cpu ∧ new.any (fun fs => fs.appId.toNat = i.val) then p.bytes
          else 0).sum) : r.1.Tally k c :=
    ⟨by rw [hnew]; exact hentry, by rw [hnew]; exact hc, by rw [hnew]; exact hb⟩
  -- while the entry is open, nothing has been counted
  have hopen_bytes (hopen : ∀ fs ∈ old, fs.state.isTerminal = false) (cpu : ℕ)
      (i : Fin appCounterEntries) : (s.appCounters cpu i).bytes = 0 := by
    rw [hsum (fun fs hfs hgave => by simpa [hgave, FlowState.isTerminal] using hopen fs hfs),
      hnil hopen]
    rfl
  have hring (hopen : ∀ fs ∈ old, fs.state.isTerminal = false) (hpath : path = .ring evt) :
      path = .ring evt ∧ counted = [] ∧ r.1.Tally k counted := by
    have hzero := hopen_bytes hopen
    obtain rfl := hnil hopen
    refine ⟨hpath, rfl, htally (fun _ => rfl) fun _ cpu i => ?_⟩
    rw [hbytes, hzero, hpath]
    rfl
  cases hflow with
  | first => exact .inl (hring (by simp) rfl)
  | unstored => exact .inl (hring (by simp) rfl)
  | pending fs hopen => exact .inl (hring (by simpa using hopen) rfl)
  | gaveUp fs hopen =>
    refine .inr ⟨⟨0, rfl⟩, htally (fun hterm => ?_) fun hgave => ?_⟩
    · simp [FlowState.isTerminal] at hterm
    · exact absurd rfl (hgave _ rfl)
  | learned fs v hopen =>
    have hopen' : ∀ g ∈ some fs, g.state.isTerminal = false := by simpa using hopen
    have hzero := hopen_bytes hopen'
    obtain rfl := hnil hopen'
    refine .inr ⟨⟨v, rfl⟩, htally (fun hterm => ?_) fun _ cpu i => ?_⟩
    · simp [FlowState.isTerminal] at hterm
    · rw [hbytes, hzero, fst_share_counted]
      simp
  | decided fs hterm =>
    refine .inr ⟨⟨fs.appId, rfl⟩, htally (fun hopen => ?_) fun hgave cpu i => ?_⟩
    · have hfalse := hopen _ rfl
      rw [ObsFlowState.touch, hterm] at hfalse
      cases hfalse
    · rw [hbytes, hsum (by simpa [ObsFlowState.touch] using hgave), List.map_append,
        List.sum_append, fst_share_counted]
      simp [ObsFlowState.touch]

/-- A verdict for the flow, while its entry is not classified. -/
theorem writeVerdict (h : s.Tally k counted) (app : UInt16)
    (hopen : ∀ fs ∈ s.flowMap.lookup k, fs.state ≠ .classified) :
    (s.writeVerdict k app).Tally k counted :=
  ⟨fun fs hfs => ⟨fun hstate => absurd hstate (hopen fs hfs), (h.entry fs hfs).2⟩,
    h.counted_eq_nil, h.bytes_eq⟩

end Kernel.Tally

theorem lookup_writeVerdict_cases (s : Kernel) (k : FlowKey) (app : UInt16) :
    (s.writeVerdict k app).verdictMap.lookup k = s.verdictMap.lookup k ∨
      (s.writeVerdict k app).verdictMap.lookup k = some app := by
  rw [Kernel.writeVerdict]
  cases h : s.verdictMap.update k app with
  | none => exact .inl rfl
  | some m =>
    refine .inr ?_
    dsimp only [Option.getD_some]
    rw [BoundedMap.lookup_update h, if_pos rfl]

/-! ### The daemon -/

theorem Exit.decides_of_hasTail {y : Exit} (h : y.hasTail = true) : y.decides = true := by
  cases y <;> simp_all [Exit.hasTail, Exit.decides]

/-- A call that classifies the flow has a verdict tail. -/
theorem Call.hasTail_of_classified (env : Env) (evt : FlowEvent) (fd : ℤ) (a : Answers) (e : Engine)
    {f : FlowEntry} (hopen : f.state.isTerminal = false)
    (h : (Call.process env evt fd a { engine := e, flow := f }).flow.state = .classified) :
    (f.exit evt a).hasTail = true := by
  obtain ⟨x, hallows, hrec⟩ := Call.process_records_entry env evt fd a e hopen
  have hleaves := hrec.leaves
  cases hexit : f.exit evt a with
  | classified | lastResort => rfl
  | cached =>
    rw [hexit] at hallows
    exact hallows.elim
  | emptyPending | pending | emptyGaveUp | allocFailed =>
    rw [hexit, Exit.Allows] at hallows
    rw [hallows, Ending.Leaves, h] at hleaves
    cases hleaves

theorem Engine.totals_appBytes (e : Engine) (i : Fin numApps) :
    (e.totals.1 i).1 = e.appBytes i := rfl

/-- What the daemon has counted of a single flow: every event in its entry, and the bytes of the
entry under its application once it is classified. -/
structure EngineRun.Tally (k : FlowKey) (w : EngineRun) : Prop where
  sound : w.Sound
  absent : flowTableLookup w.engine.flows k = none → w.calls = [] ∧ ∀ i, w.engine.appBytes i = 0
  bytes_eq : ∀ f ∈ flowTableLookup w.engine.flows k,
    f.bytes = (w.calls.map fun c => c.2.1.pktLen.toUInt64).sum
  undecided : ∀ f ∈ flowTableLookup w.engine.flows k, f.state.isTerminal = false →
    ∀ i, w.engine.appBytes i = 0
  classified : ∀ f ∈ flowTableLookup w.engine.flows k, f.state = .classified →
    ∀ i, w.engine.appBytes i = if i.val = f.appId.toNat then f.bytes else 0

namespace EngineRun.Tally

variable (env : Env) (fd : ℤ) {k : FlowKey} {w : EngineRun}

theorem start (iface : Bytes) (ml dump : Bool) (k : FlowKey) :
    (EngineRun.start iface ml dump).Tally k := by
  have hnone : flowTableLookup (EngineRun.start iface ml dump).engine.flows k = none := rfl
  refine ⟨EngineRun.sound_start iface ml dump, fun _ => ⟨rfl, fun _ => rfl⟩, ?_, ?_, ?_⟩
  all_goals
    rw [hnone]
    rintro f ⟨⟩

/-- An event of the flow that finds its entry undecided. -/
theorem call (h : w.Tally k) {evt : FlowEvent} {a : Answers} {f : FlowEntry} (hkey : evt.key = k)
    (ho : w.engine.obtain evt a = some f) (hopen : f.state.isTerminal = false) :
    (w.step env (.process evt fd a)).Tally k := by
  subst hkey
  have hlookup := h.sound.lookup_step_process env fd ho evt.key
  rw [if_pos rfl] at hlookup
  have hcalls : (w.step env (.process evt fd a)).calls = w.calls ++ [(f, evt, a)] := by
    rw [step_process_of_some env fd ho]
  -- the entry has the bytes of all events so far, and nothing is counted elsewhere
  have hf : f.bytes = (w.calls.map fun c => c.2.1.pktLen.toUInt64).sum ∧
      ∀ i, w.engine.appBytes i = 0 := by
    rcases entered_cases ho with ⟨hl, -⟩ | ⟨rfl, hl, -⟩
    · exact ⟨h.bytes_eq f hl, h.undecided f hl hopen⟩
    · obtain ⟨hnil, hzero⟩ := h.absent hl
      rw [hnil]
      exact ⟨rfl, hzero⟩
  have hmeters := Call.process_meters env evt fd a
    { engine := w.engine.bodyStart evt a, flow := f }
  rw [if_neg (by simp [hopen])] at hmeters
  have hbytes : (w.body env evt fd a f).flow.bytes = f.bytes + evt.pktLen.toUInt64 :=
    congrArg (fun m => m.2.2.1) hmeters
  have htotals (i : Fin numApps) : (w.step env (.process evt fd a)).engine.appBytes i =
      if (f.exit evt a).hasTail = true ∧ i.val = (w.body env evt fd a f).flow.appId.toNat then
        (w.body env evt fd a f).flow.bytes else 0 := by
    rw [← Engine.totals_appBytes, totals_step_process env fd ho]
    dsimp only [Prod.fst_add, Pi.add_apply]
    rw [Engine.totals_appBytes, hf.2 i, zero_add, FlowEntry.share]
    by_cases htail : (f.exit evt a).hasTail = true
    · rw [if_pos htail]
      by_cases hi : i.val = (w.body env evt fd a f).flow.appId.toNat <;> simp [htail, hi]
    · rw [if_neg htail, if_neg fun hboth => htail hboth.1]
      rfl
  have hterm : (w.body env evt fd a f).flow.state.isTerminal =
      (f.state.isTerminal || (f.exit evt a).decides) :=
    Call.process_isTerminal env evt fd a (w.engine.bodyStart evt a)
  have htail := Call.hasTail_of_classified env evt fd a (w.engine.bodyStart evt a) hopen
  refine ⟨h.sound.step env (.process evt fd a), ?_, ?_, ?_, ?_⟩
  all_goals rw [hlookup]
  · rintro ⟨⟩
  · rintro _ ⟨⟩
    rw [hcalls, List.map_append, List.sum_append, ← hf.1, hbytes]
    simp
  · rintro _ ⟨⟩ hundecided i
    rw [hundecided, hopen, Bool.false_or] at hterm
    rw [htotals, if_neg fun hboth => ?_]
    have hdecides := Exit.decides_of_hasTail hboth.1
    rw [← hterm] at hdecides
    cases hdecides
  · rintro _ ⟨⟩ hclassified i
    rw [htotals]
    exact if_congr (and_iff_right (htail hclassified)) rfl rfl

/-- A sweep that finds no idle flow. -/
theorem age (h : w.Tally k) {now : ℤ}
    (hnone : ∀ k, ∀ f ∈ flowTableLookup w.engine.flows k, f.isIdle now = false) :
    (w.step env (.age now)).Tally k := by
  have hidle : w.engine.flows.idle now = [] := by
    refine List.eq_nil_iff_forall_not_mem.mpr fun f hf => ?_
    obtain ⟨hl, hold⟩ := h.sound.mem_idle_iff.mp hf
    rw [hnone f.key f hl] at hold
    cases hold
  have hlookup : flowTableLookup (w.step env (.age now)).engine.flows k =
      flowTableLookup w.engine.flows k := by
    rw [h.sound.lookup_step_age env now k]
    cases hf : flowTableLookup w.engine.flows k with
    | none => rfl
    | some f => simp [Option.filter, hnone k f hf]
  have hcalls : (w.step env (.age now)).calls = w.calls := by rw [step_age]
  have htotals := totals_step_age env (w := w) now
  rw [hidle, List.map_nil, List.sum_nil, add_zero] at htotals
  have hsound := h.sound.step env (.age now)
  generalize w.step env (.age now) = w' at hlookup hcalls htotals hsound
  have hbytes (i : Fin numApps) : w'.engine.appBytes i = w.engine.appBytes i := by
    rw [← Engine.totals_appBytes, htotals, Engine.totals_appBytes]
  refine ⟨hsound, ?_, ?_, ?_, ?_⟩
  · rw [hlookup, hcalls]
    simpa only [hbytes] using h.absent
  · rw [hlookup, hcalls]
    exact h.bytes_eq
  · rw [hlookup]
    simpa only [hbytes] using h.undecided
  · rw [hlookup]
    simpa only [hbytes] using h.classified

end EngineRun.Tally

namespace Pipeline

/-! ### Both sides -/

/-- The packets are those of the flow and find room in the ring buffer, each event is processed
while the flow is undecided, and no flow expires. -/
def Timely (k : FlowKey) (w : Pipeline) : PipelineOp → Prop
  | .packet p => (parsePkt p.skb).map Prod.fst = some k ∧ p.reserve = true
  | .deliver a => w.phase = .draining → w.ring ≠ [] → a.calloc = true ∧ ¬w.Decided k
  | .age now => ExpiresNone w (.age now)
  | .drained | .loop => True

/-- The packets `sent` were submitted, and the packets `counted` counted in the kernel. The events
of the former wait or are processed, and a verdict is that of the daemon's entry. -/
structure Accounted (k : FlowKey) (sent counted : List Pkt) (w : Pipeline) : Prop where
  daemon : w.daemon.Tally k
  kernel : w.kernel.Tally k counted
  key_eq : ∀ evt ∈ w.ring, evt.key = k
  pktLen_eq : (w.daemon.calls.map fun c => c.2.1.pktLen) ++ w.ring.map FlowEvent.pktLen =
    sent.map fun p => p.ipTot.toUInt32
  decided : ∀ v ∈ w.kernel.verdictMap.lookup k,
    ∃ f ∈ flowTableLookup w.daemon.engine.flows k, f.state.isTerminal = true ∧ f.appId = v

variable (env : Env) (fd : ℤ) {w : Pipeline} {k : FlowKey} {sent counted : List Pkt}

theorem accounted_start (iface : Bytes) (ml dump : Bool) (k : FlowKey) :
    (start iface ml dump).Accounted k [] [] := by
  have hentry : (start iface ml dump).kernel.flowMap.lookup k = none := BoundedMap.lookup_empty k
  have hverdict : (start iface ml dump).kernel.verdictMap.lookup k = none :=
    BoundedMap.lookup_empty k
  refine ⟨EngineRun.Tally.start iface ml dump k, ⟨?_, fun _ => rfl, fun _ _ _ => rfl⟩, ?_, rfl, ?_⟩
  · rw [hentry]
    rintro fs ⟨⟩
  · rintro evt ⟨⟩
  · rw [hverdict]
    rintro v ⟨⟩

theorem Accounted.packet (h : w.Accounted k sent counted) (p : Pkt)
    (htimely : Timely k w (.packet p)) :
    ∃ sent' counted', sent' ++ counted' = sent ++ counted ++ [p] ∧
      (w.next env fd (.packet p)).Accounted k sent' counted' := by
  obtain ⟨hkey, hreserve⟩ := htimely
  obtain ⟨⟨k', tot⟩, hparse, rfl⟩ := Option.map_eq_some_iff.mp hkey
  dsimp only at h ⊢
  have hevent : ∃ evt, p.event k' tot = some evt := ⟨_, if_pos hreserve⟩
  obtain ⟨evt, hevt⟩ := hevent
  have hstep : w.next env fd (.packet p) =
      { w with
        kernel := (processFlow w.kernel p k' (some evt)).1
        ring := w.ring ++ (processFlow w.kernel p k' (some evt)).2.event.toList } := by
    rw [next, step, processPkt_of_some hparse, hevt]
    rfl
  have hverdict : (processFlow w.kernel p k' (some evt)).1.verdictMap = w.kernel.verdictMap :=
    processFlow_verdictMap w.kernel p k' _
  have htally := h.kernel.packet p (some evt)
  rw [hstep]
  generalize processFlow w.kernel p k' (some evt) = r at hverdict htally
  obtain ⟨s, path⟩ := r
  have hv : ∀ v ∈ s.verdictMap.lookup k', ∃ f ∈ flowTableLookup w.daemon.engine.flows k',
      f.state.isTerminal = true ∧ f.appId = v := by
    rw [hverdict]
    exact h.decided
  rcases htally with ⟨rfl, rfl, htally⟩ | ⟨⟨app, rfl⟩, htally⟩
  · refine ⟨sent ++ [p], [], by simp, h.daemon, htally, fun e he => ?_, ?_, hv⟩
    · rcases List.mem_append.mp he with he | he
      · exact h.key_eq e he
      · obtain rfl := List.mem_singleton.mp he
        exact Pkt.key_event hevt
    · have hring : (w.ring ++ (PktPath.ring (some evt)).event.toList).map FlowEvent.pktLen =
          w.ring.map FlowEvent.pktLen ++ [p.ipTot.toUInt32] := by
        rw [List.map_append, ← Pkt.pktLen_event hparse hevt]
        rfl
      rw [hring, ← List.append_assoc, h.pktLen_eq, List.map_append]
      rfl
  · refine ⟨sent, counted ++ [p], by simp, h.daemon, htally, fun e he => ?_, ?_, hv⟩
    · rw [PktPath.event, Option.toList_none, List.append_nil] at he
      exact h.key_eq e he
    · rw [PktPath.event, Option.toList_none, List.append_nil]
      exact h.pktLen_eq

/-- While the daemon's entry is undecided, there is no verdict and no decided entry. -/
theorem Accounted.not_classified (h : w.Accounted k sent counted) (hundecided : ¬w.Decided k) :
    w.kernel.verdictMap.lookup k = none ∧
      ∀ fs ∈ w.kernel.flowMap.lookup k, fs.state ≠ .classified := by
  have hnone : w.kernel.verdictMap.lookup k = none := by
    refine Option.eq_none_iff_forall_not_mem.mpr fun v hv => ?_
    obtain ⟨f, hf, hterm, -⟩ := h.decided v hv
    exact hundecided ((decided_of_daemonEntry hf).mpr hterm)
  refine ⟨hnone, fun fs hfs hstate => ?_⟩
  have hsome := (h.kernel.entry fs hfs).1 hstate
  rw [hnone] at hsome
  cases hsome

theorem Accounted.deliver (h : w.Accounted k sent counted) (a : Answers)
    (htimely : Timely k w (.deliver a)) :
    (w.next env fd (.deliver a)).Accounted k sent counted := by
  rcases step_deliver_cases env fd h.daemon.sound a with
    heq | ⟨evt, rest, hphase, hring, hring', -, hdaemon, hkernel⟩
  · rwa [heq]
  obtain ⟨halloc, hundecided⟩ := htimely hphase (by rw [hring]; exact List.cons_ne_nil _ _)
  obtain ⟨f, ho⟩ := exists_obtain w.daemon.engine evt halloc
  have hkey : evt.key = k := h.key_eq evt (by rw [hring]; exact List.mem_cons_self)
  have hopen : f.state.isTerminal = false := by
    rcases EngineRun.entered_cases ho with ⟨hl, -⟩ | ⟨rfl, -⟩
    · rw [hkey] at hl
      exact Bool.eq_false_iff.mpr (mt (decided_of_daemonEntry hl).mpr hundecided)
    · rfl
  obtain ⟨hnone, hentry⟩ := h.not_classified hundecided
  have hcalls :
      (w.daemon.step env (.process evt fd a)).calls = w.daemon.calls ++ [(f, evt, a)] := by
    rw [EngineRun.step_process_of_some env fd ho]
  have hlookup := h.daemon.sound.lookup_step_process env fd ho k
  rw [if_pos hkey] at hlookup
  have htally := h.daemon.call env fd hkey ho hopen
  have hterm : (w.daemon.body env evt fd a f).flow.state.isTerminal =
      (f.state.isTerminal || (f.exit evt a).decides) :=
    Call.process_isTerminal env evt fd a (w.daemon.engine.bodyStart evt a)
  rcases hkernel with ⟨hlost, -⟩ | ⟨g, hg, -, hkernel⟩
  · rw [ho] at hlost
    cases hlost
  obtain rfl : g = f := Option.some.inj (hg.symm.trans ho)
  rw [hkey] at hkernel
  have hkeys := h.key_eq
  have hlen := h.pktLen_eq
  rw [hring] at hkeys hlen
  generalize w.next env fd (.deliver a) = w' at hring' hdaemon hkernel
  refine ⟨by rw [hdaemon]; exact htally, ?_, ?_, ?_, ?_⟩
  · rw [hkernel]
    split
    case isTrue => exact h.kernel.writeVerdict _ hentry
    case isFalse => exact h.kernel
  · rw [hring']
    exact fun e he => hkeys e (List.mem_cons_of_mem _ he)
  · rw [hring', hdaemon, hcalls, ← hlen, List.map_append, List.append_assoc]
    rfl
  · intro v hv
    rw [hdaemon, hlookup]
    rw [hkernel] at hv
    split at hv
    case isFalse =>
      rw [hnone] at hv
      cases hv
    case isTrue hpub =>
      rcases lookup_writeVerdict_cases w.kernel k (w.daemon.body env evt fd a g).flow.appId with
        hsame | hnew
      · rw [hsame, hnone] at hv
        cases hv
      · rw [hnew] at hv
        refine ⟨_, rfl, ?_, Option.some.inj hv⟩
        rw [hterm, Exit.decides_of_publishes hpub.2, Bool.or_true]

/-- **One step.** The packets stay accounted for. -/
theorem Accounted.step (h : w.Accounted k sent counted) (op : PipelineOp)
    (htimely : Timely k w op) :
    ∃ sent' counted', sent' ++ counted' = sent ++ counted ++ PipelineOp.packets [op] ∧
      (w.next env fd op).Accounted k sent' counted' := by
  have hsame {w' : Pipeline} (h' : w'.Accounted k sent counted) : ∃ sent' counted',
      sent' ++ counted' = sent ++ counted ++ [] ∧ w'.Accounted k sent' counted' :=
    ⟨sent, counted, (List.append_nil _).symm, h'⟩
  cases op with
  | packet p => exact h.packet env fd p htimely
  | deliver a => exact hsame (h.deliver env fd a htimely)
  | drained =>
    rcases step_drained_cases env fd w with heq | ⟨-, heq⟩
    · rw [heq]
      exact hsame h
    · rw [heq]
      exact hsame ⟨h.daemon, h.kernel, h.key_eq, h.pktLen_eq, h.decided⟩
  | age now =>
    rcases step_age_cases env fd w now with heq | ⟨hphase, heq⟩
    · rw [heq]
      exact hsame h
    · have htally := h.daemon.age env (htimely hphase)
      have hlookup := h.daemon.sound.lookup_step_age env now k
      have hcalls : (w.daemon.step env (.age now)).calls = w.daemon.calls := by
        rw [EngineRun.step_age]
      rw [heq]
      generalize w.daemon.step env (.age now) = d at htally hlookup hcalls
      refine hsame ⟨htally, h.kernel, h.key_eq, by rw [hcalls]; exact h.pktLen_eq, fun v hv => ?_⟩
      obtain ⟨f, hf, hdecided⟩ := h.decided v hv
      refine ⟨f, ?_, hdecided⟩
      have hkept : f.isIdle now = false := htimely hphase k f hf
      rw [hlookup, Option.mem_def.mp hf]
      simp [Option.filter, hkept]
  | loop => exact hsame ⟨h.daemon, h.kernel, h.key_eq, h.pktLen_eq, h.decided⟩

theorem packets_cons (op : PipelineOp) (ops : List PipelineOp) :
    PipelineOp.packets (op :: ops) = PipelineOp.packets [op] ++ PipelineOp.packets ops := by
  cases op <;> rfl

theorem Accounted.run (h : w.Accounted k sent counted) (ops : List PipelineOp)
    (htimely : Along (next env fd) (Timely k) w ops) :
    ∃ sent' counted', sent' ++ counted' = sent ++ counted ++ PipelineOp.packets ops ∧
      (run (next env fd) w ops).Accounted k sent' counted' := by
  induction ops generalizing w sent counted with
  | nil => exact ⟨sent, counted, (List.append_nil _).symm, h⟩
  | cons op ops ih =>
    obtain ⟨sent₁, counted₁, heq₁, h₁⟩ := h.step env fd op htimely.1
    obtain ⟨sent₂, counted₂, heq₂, h₂⟩ := ih h₁ htimely.2
    refine ⟨sent₂, counted₂, ?_, h₂⟩
    rw [heq₂, heq₁, packets_cons op ops, ← List.append_assoc (sent ++ counted)]

/-! ### What is shown -/

/-- The merged bytes of an application, with the counters of the first CPUs; an application from
512 on has no counter. -/
def shownBytes (ncpu : ℕ) (app : UInt16) (w : Pipeline) : UInt64 :=
  if h : app.toNat < numApps then
    (MetricsIn.ofKernel w.kernel ncpu).merged w.daemon.engine.appBytes ObsAppCnt.bytes
      ⟨app.toNat, h⟩
  else 0

/-- All events are processed, the daemon has classified the flow as `app`, and the kernel has not
given it up. -/
def Classified (k : FlowKey) (app : UInt16) (w : Pipeline) : Prop :=
  w.ring = [] ∧ ¬w.GaveUp k ∧ ∃ f ∈ w.daemonEntry k, f.state = .classified ∧ f.appId = app

instance (k : FlowKey) (app : UInt16) (w : Pipeline) : Decidable (Classified k app w) :=
  inferInstanceAs (Decidable (_ ∧ _ ∧ _))

/-- The counters of the CPUs add up to what is read of each packet. -/
theorem sum_cpus (counted : List Pkt) (n : ℕ) :
    ((List.range n).map fun cpu =>
      (counted.map fun p => if p.cpu = cpu then p.bytes else 0).sum).sum =
      (counted.map fun p => if p.cpu < n then p.bytes else 0).sum := by
  induction n with
  | zero => simp
  | succ n ih =>
    rw [List.range_succ, List.map_append, List.sum_append, ih, List.map_singleton,
      List.sum_singleton, ← List.sum_map_add]
    refine congrArg List.sum (List.map_congr_left fun p _ => ?_)
    rcases lt_trichotomy p.cpu n with h | h | h
    · rw [if_pos h, if_neg h.ne, if_pos (by omega), add_zero]
    · rw [if_neg h.not_lt, if_pos h, if_pos (by omega), zero_add]
    · rw [if_neg h.not_gt, if_neg h.ne', if_neg (by omega), add_zero]

/-- **Packet by packet.** The merged bytes of a classified flow: the daemon has added the total
length of each packet that was submitted, and the kernel `skb->len` of the others. -/
theorem Accounted.shownBytes_eq (h : w.Accounted k sent counted) {app : UInt16}
    (hdone : w.Classified k app) (ncpu : ℕ) (hlt : app.toNat < numApps) :
    w.daemon.calls.length = sent.length ∧ w.shownBytes ncpu app =
      (sent.map Pkt.ipBytes).sum + (counted.map (Pkt.readBytes ncpu)).sum := by
  obtain ⟨hring, hopen, f, hf, hstate, rfl⟩ := hdone
  have hlen := h.pktLen_eq
  rw [hring, List.map_nil, List.append_nil] at hlen
  refine ⟨by simpa using congrArg List.length hlen, ?_⟩
  have hsent : (w.daemon.calls.map fun c => c.2.1.pktLen.toUInt64) = sent.map Pkt.ipBytes := by
    have hmap := congrArg (List.map UInt32.toUInt64) hlen
    rwa [List.map_map, List.map_map] at hmap
  -- a packet is counted under the verdict, which is that of the entry
  have hopen' : ∀ fs ∈ w.kernel.flowMap.lookup k, fs.state ≠ .gaveUp := by
    intro fs hfs hgave
    rw [GaveUp, kernelEntry, Option.mem_def.mp hfs] at hopen
    exact hopen (congrArg some hgave)
  have happ : counted = [] ∨
      (w.kernel.flowMap.lookup k).any (fun fs => fs.appId.toNat = f.appId.toNat) = true := by
    refine or_iff_not_imp_left.mpr fun hne => ?_
    obtain ⟨fs, hfs, hterm⟩ : ∃ fs ∈ w.kernel.flowMap.lookup k, fs.state.isTerminal = true := by
      by_contra hnone
      push Not at hnone
      exact hne (h.kernel.counted_eq_nil fun fs hfs => Bool.eq_false_iff.mpr (hnone fs hfs))
    have hclassified : fs.state = .classified := by
      have hne := hopen' fs hfs
      cases hfs' : fs.state <;> simp_all [FlowState.isTerminal]
    obtain ⟨g, hg, -, happ⟩ := h.decided _ ((h.kernel.entry fs hfs).1 hclassified)
    obtain rfl : f = g := Option.some.inj (hf.symm.trans hg)
    rw [Option.mem_def.mp hfs, happ]
    simp
  rw [shownBytes, dif_pos hlt, MetricsIn.merged_eq, h.daemon.classified f hf hstate, if_pos rfl,
    h.daemon.bytes_eq f hf, hsent, MetricsIn.perCpu_ofKernel, List.map_map]
  refine congrArg (_ + ·) ((congrArg List.sum ?_).trans (sum_cpus counted (min ncpu 256)))
  refine List.map_congr_left fun cpu _ => ?_
  refine (h.kernel.bytes_eq hopen' cpu ⟨f.appId.toNat, hlt⟩).trans ?_
  rcases happ with rfl | happ
  · rfl
  · simp only [happ, and_true]

/-- The packets of two runs, of which one submitted the first `m` and the other the first `n`, that
were counted on different sides. -/
def countedApart (ops : List PipelineOp) (m n : ℕ) : List Pkt :=
  ((PipelineOp.packets ops).take (max m n)).drop (min m n)

/-- The merged bytes at the end of a run, from the number of packets that were submitted. -/
theorem shownBytes_run (ncpu : ℕ) {k : FlowKey} (iface : Bytes) (ml dump : Bool)
    {ops : List PipelineOp} (htimely : Along (next env fd) (Timely k) (start iface ml dump) ops)
    {app : UInt16} (hdone : Classified k app (Machine.run (next env fd) (start iface ml dump) ops))
    (hlt : app.toNat < numApps) :
    (Machine.run (next env fd) (start iface ml dump) ops).shownBytes ncpu app =
      booked Pkt.ipBytes (Pkt.readBytes ncpu) (PipelineOp.packets ops)
        (Machine.run (next env fd) (start iface ml dump) ops).daemon.calls.length := by
  obtain ⟨sent, counted, hsplit, h⟩ := (accounted_start iface ml dump k).run env fd ops htimely
  obtain ⟨hlen, hbytes⟩ := h.shownBytes_eq hdone ncpu hlt
  rw [hbytes, hlen, ← booked_append, hsplit]
  rfl

/-- **Verdict timing.** Two runs with the same packets of one flow, which the daemon classifies in
both as the same application, show the same bytes if and only if the application has no counter, or
the packets that were counted on different sides have together as many bytes by `skb->len` (on the
CPUs that are read) as by the total lengths in their IP headers. -/
theorem shownBytes_eq_iff (ncpu : ℕ) (k : FlowKey) (iface : Bytes) (ml dump : Bool)
    {ops ops' : List PipelineOp} (hsame : PipelineOp.packets ops = PipelineOp.packets ops')
    (htimely : Along (next env fd) (Timely k) (start iface ml dump) ops)
    (htimely' : Along (next env fd) (Timely k) (start iface ml dump) ops') {app : UInt16}
    (hdone : Classified k app (Machine.run (next env fd) (start iface ml dump) ops))
    (hdone' : Classified k app (Machine.run (next env fd) (start iface ml dump) ops')) :
    let w := Machine.run (next env fd) (start iface ml dump) ops
    let w' := Machine.run (next env fd) (start iface ml dump) ops'
    let apart := countedApart ops w.daemon.calls.length w'.daemon.calls.length
    w.shownBytes ncpu app = w'.shownBytes ncpu app ↔
      numApps ≤ app.toNat ∨ (apart.map Pkt.ipBytes).sum = (apart.map (Pkt.readBytes ncpu)).sum := by
  intro w w' apart
  by_cases hlt : app.toNat < numApps
  · rw [or_iff_right (not_le.mpr hlt), shownBytes_run env fd ncpu iface ml dump htimely hdone hlt,
      shownBytes_run env fd ncpu iface ml dump htimely' hdone' hlt, ← hsame]
    exact booked_eq_iff _ _ _ _ _
  · refine iff_of_true ?_ (.inl (not_lt.mp hlt))
    rw [shownBytes, dif_neg hlt, shownBytes, dif_neg hlt]

/-- Two packets of a flow. nDPI knows it from the first one, so the kernel counts the second. -/
def earlyVerdict (p : Pkt) : List PipelineOp :=
  [.packet p, .deliver { detection := { app := 5 } }, .packet p]

/-- The same packets, when nDPI knows the flow from the second one only. -/
def lateVerdict (p : Pkt) : List PipelineOp :=
  [.packet p, .deliver {}, .packet p, .deliver { detection := { app := 5 } }]

/-- `udpPkt` with a total length of all 74 bytes of the frame. -/
def inflatedPkt : Pkt where
  skb :=
    { bytes := List.replicate 12 0 ++ [0x08, 0x00] ++
        [0x45, 0, 0, 74, 0, 0, 0, 0, 64, 17, 0, 0, 10, 0, 0, 1, 10, 0, 0, 2] ++
        [0x9C, 0x40, 0x01, 0xBB, 0, 40, 0, 0] ++ List.replicate 32 0
      headLen := 74
      headLen_le := by decide }

/-- The total length makes up for the Ethernet header. -/
theorem shownBytes_inflatedPkt :
    let early := Machine.run (next default 3) (start [] true false) (earlyVerdict inflatedPkt)
    let late := Machine.run (next default 3) (start [] true false) (lateVerdict inflatedPkt)
    early.shownBytes 1 5 = late.shownBytes 1 5 := by
  have hpacket : (parsePkt inflatedPkt.skb).map Prod.fst = some udpKey := by decide +kernel
  have htimely : Along (next default 3) (Timely udpKey) (start [] true false)
      (earlyVerdict inflatedPkt) :=
    ⟨⟨hpacket, rfl⟩, fun _ _ => ⟨rfl, by decide +kernel⟩, ⟨hpacket, rfl⟩, trivial⟩
  have htimely' : Along (next default 3) (Timely udpKey) (start [] true false)
      (lateVerdict inflatedPkt) :=
    ⟨⟨hpacket, rfl⟩, fun _ _ => ⟨rfl, by decide +kernel⟩, ⟨hpacket, rfl⟩,
      fun _ _ => ⟨rfl, by decide +kernel⟩, trivial⟩
  have hsame : PipelineOp.packets (earlyVerdict inflatedPkt) =
      PipelineOp.packets (lateVerdict inflatedPkt) := rfl
  refine (shownBytes_eq_iff default 3 1 udpKey [] true false hsame htimely htimely'
    ?_ ?_).mpr (.inr ?_)
  all_goals decide +kernel

/-- The kernel adds the Ethernet header of the second packet. -/
theorem verdict_timing_changes_bytes : ¬ ∀ (env : Env) (fd : ℤ) (ncpu : ℕ) (k : FlowKey)
    (iface : Bytes) (ml dump : Bool) (ops ops' : List PipelineOp) (app : UInt16),
    let w := Machine.run (next env fd) (start iface ml dump) ops
    let w' := Machine.run (next env fd) (start iface ml dump) ops'
    PipelineOp.packets ops = PipelineOp.packets ops' →
      Along (next env fd) (Timely k) (start iface ml dump) ops →
      Along (next env fd) (Timely k) (start iface ml dump) ops' →
      Classified k app w → Classified k app w' →
      w.shownBytes ncpu app = w'.shownBytes ncpu app := by
  intro h
  have hpacket : (parsePkt udpPkt.skb).map Prod.fst = some udpKey := by decide +kernel
  have hequal := h default 3 1 udpKey [] true false (earlyVerdict udpPkt) (lateVerdict udpPkt) 5 rfl
    ⟨⟨hpacket, rfl⟩, fun _ _ => ⟨rfl, by decide +kernel⟩, ⟨hpacket, rfl⟩, trivial⟩
    ⟨⟨hpacket, rfl⟩, fun _ _ => ⟨rfl, by decide +kernel⟩, ⟨hpacket, rfl⟩,
      fun _ _ => ⟨rfl, by decide +kernel⟩, trivial⟩ (by decide +kernel) (by decide +kernel)
  revert hequal
  decide +kernel

end Pipeline

end NdpiObserve
