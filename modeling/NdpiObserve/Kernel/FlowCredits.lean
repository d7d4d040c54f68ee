import NdpiObserve.Kernel.SlowPath

/-!
# The account of a flow in the kernel

Every packet of a flow leaves `process_pkt` by one of five exits: it is handed to the ring buffer,
or counted once under an application, and the packet with which the flow leaves CLASSIFYING also
counts the flow. The three counters of the applications are the sums of these credits, and the
exits of a stored flow come in one order: some packets for the ring buffer, the packet that counts
the flow, and packets under the same application from then on.

## Main definitions

* `KernelLife`: the entry of a stored flow, with the exits that its packets have taken.

## Main results

* `KernelLife.step`: one packet of a stored flow.
* `Kernel.flow_account_run`: the account of a flow over any run.
* `Kernel.lost_packet_unaccounted`: a packet for which the ring buffer has no room is in no
  account but the entry's.
-/

namespace NdpiObserve

open Machine

/-! ### The exits of a stored flow -/

/-- The exits of `n` packets that are counted under an application, the first of which counts the
flow. -/
def countedUnder (app : UInt16) : ℕ → List (PktPath × Bool)
  | 0 => []
  | n + 1 => (.counted app, true) :: List.replicate n (.counted app, false)

theorem countedUnder_succ (app : UInt16) {n : ℕ} (h : n ≠ 0) :
    countedUnder app (n + 1) = countedUnder app n ++ [(.counted app, false)] := by
  obtain ⟨n, rfl⟩ := Nat.exists_eq_succ_of_ne_zero h
  rw [countedUnder, countedUnder, List.replicate_succ', List.cons_append]

/-- The entry of a flow after its packets took `exits`: `evts` of them went to the ring buffer,
before `n` that were counted under `app`. -/
structure KernelLife (evts : List (Option FlowEvent)) (app : UInt16) (n : ℕ)
    (old : Option ObsFlowState) (exits : List (PktPath × Bool)) : Prop where
  exits_eq : exits = evts.map (fun e => (.ring e, false)) ++ countedUnder app n
  app_lt : app.toNat < appCounterEntries
  length_lt : evts.length < flowMaxClassifyPkts.toNat
  absent : old = none → evts = [] ∧ n = 0
  packets_eq : ∀ fs, old = some fs → fs.packets = UInt64.ofNat (evts.length + n)
  pktCount_le : ∀ fs, old = some fs → fs.pktCount.toNat ≤ flowMaxClassifyPkts.toNat
  undecided : ∀ fs, old = some fs → n = 0 →
    fs.state = .classifying ∧ fs.pktCount.toNat = evts.length
  decided : ∀ fs, old = some fs → n ≠ 0 → fs.state.isTerminal = true ∧ fs.appId = app

theorem kernelLife_unseen : KernelLife [] 0 0 none [] where
  exits_eq := rfl
  app_lt := by decide
  length_lt := by decide
  absent _ := ⟨rfl, rfl⟩
  packets_eq := nofun
  pktCount_le := nofun
  undecided := nofun
  decided := nofun

section Step

variable {evts : List (Option FlowEvent)} {app : UInt16} {n : ℕ} {fs : ObsFlowState}
  {exits : List (PktPath × Bool)} {p : Pkt}

theorem KernelLife.first (h : KernelLife evts app n none exits) (p : Pkt)
    (evt : Option FlowEvent) :
    KernelLife [evt] 0 0 (some p.newFs) (exits ++ [(.ring evt, false)]) := by
  obtain ⟨rfl, rfl⟩ := h.absent rfl
  have hnil : exits = [] := h.exits_eq
  refine ⟨by rw [hnil]; rfl, by decide, (by decide : 1 < 8), nofun, fun fs hfs => ?_,
    fun fs hfs => ?_, fun fs hfs _ => ?_, fun _ _ hn => absurd rfl hn⟩
  all_goals obtain rfl := Option.some.inj hfs
  · rfl
  · exact (by decide : 1 ≤ 8)
  · exact ⟨rfl, rfl⟩

/-- A packet of a decided flow. -/
theorem KernelLife.cached (h : KernelLife evts app n (some fs) exits)
    (hterm : fs.state.isTerminal = true) :
    KernelLife evts app (n + 1) (some (fs.touch p)) (exits ++ [(.counted fs.appId, false)]) := by
  have hn : n ≠ 0 := by
    rintro rfl
    rw [(h.undecided fs rfl rfl).1] at hterm
    cases hterm
  obtain ⟨-, happ⟩ := h.decided fs rfl hn
  refine ⟨?_, h.app_lt, h.length_lt, nofun, fun fs' hfs => ?_, fun fs' hfs => ?_, nofun,
    fun fs' hfs _ => ?_⟩
  · rw [h.exits_eq, happ, List.append_assoc, ← countedUnder_succ app hn]
  all_goals obtain rfl := Option.some.inj hfs
  · rw [← Nat.add_assoc, UInt64.ofNat_add, ← h.packets_eq fs rfl]
    rfl
  · exact h.pktCount_le fs rfl
  · exact ⟨hterm, happ⟩

/-- The packet with which a flow leaves CLASSIFYING, under the application `v`. -/
theorem KernelLife.leaves {v : UInt16} {new : ObsFlowState}
    (h : KernelLife evts app n (some fs) exits) (hopen : fs.state.isTerminal = false)
    (hv : v.toNat < appCounterEntries) (hpackets : new.packets = fs.packets + 1)
    (hcount : new.pktCount = fs.pktCount ∨ new.pktCount = fs.pktCount + 1)
    (hterm : new.state.isTerminal = true) (happ : new.appId = v) :
    KernelLife evts v 1 (some new) (exits ++ [(.counted v, true)]) := by
  have hn : n = 0 := by
    by_contra hn
    rw [(h.decided fs rfl hn).1] at hopen
    cases hopen
  subst hn
  obtain ⟨-, hcount'⟩ := h.undecided fs rfl rfl
  have hlt : evts.length < 8 := h.length_lt
  refine ⟨?_, hv, hlt, nofun, fun fs' hfs => ?_, fun fs' hfs => ?_, nofun, fun fs' hfs _ => ?_⟩
  · rw [h.exits_eq, countedUnder, List.append_nil]
    rfl
  all_goals obtain rfl := Option.some.inj hfs
  · rw [hpackets, h.packets_eq fs rfl, UInt64.ofNat_add evts.length 1]
    rfl
  · have hmax : flowMaxClassifyPkts.toNat = 8 := rfl
    rcases hcount with hcount | hcount
    · rw [hcount]
      exact h.pktCount_le fs rfl
    · rw [hcount, UInt8.toNat_add, UInt8.toNat_one, hmax]
      omega
  · exact ⟨hterm, happ⟩

/-- A packet of a flow that stays undecided. -/
theorem KernelLife.pending (h : KernelLife evts app n (some fs) exits) (evt : Option FlowEvent)
    (hopen : fs.state.isTerminal = false) (hmore : fs.pktCount + 1 < flowMaxClassifyPkts) :
    KernelLife (evts ++ [evt]) app n (some { fs.touch p with pktCount := fs.pktCount + 1 })
      (exits ++ [(.ring evt, false)]) := by
  have hn : n = 0 := by
    by_contra hn
    rw [(h.decided fs rfl hn).1] at hopen
    cases hopen
  subst hn
  obtain ⟨hstate, hcount⟩ := h.undecided fs rfl rfl
  have hlt : evts.length < 8 := h.length_lt
  have hmore' : (fs.pktCount + 1).toNat < 8 := UInt8.lt_iff_toNat_lt.mp hmore
  have hnext : (fs.pktCount + 1).toNat = evts.length + 1 := by
    rw [UInt8.toNat_add, UInt8.toNat_one]
    omega
  refine ⟨?_, h.app_lt, ?_, nofun, fun fs' hfs => ?_, fun fs' hfs => ?_, fun fs' hfs _ => ?_,
    fun _ _ hn => absurd rfl hn⟩
  · rw [h.exits_eq, countedUnder, List.append_nil, List.append_nil, List.map_append]
    rfl
  · rw [List.length_append, List.length_singleton, ← hnext]
    exact hmore'
  all_goals obtain rfl := Option.some.inj hfs
  · rw [List.length_append, List.length_singleton, Nat.add_right_comm, UInt64.ofNat_add,
      ← h.packets_eq fs rfl]
    rfl
  · exact hmore'.le
  · rw [List.length_append, List.length_singleton, ← hnext]
    exact ⟨hstate, rfl⟩

/-- **One packet of a stored flow.** -/
theorem KernelLife.step {old new : Option ObsFlowState} {evt : Option FlowEvent} {full : Prop}
    {verdict : Option UInt16} {path : PktPath} (h : KernelLife evts app n old exits)
    (hflow : FlowStep p evt full verdict old path new) (hstored : old = none → ¬full)
    (hverdict : ∀ v, verdict = some v → v.toNat < appCounterEntries) :
    ∃ evts' app' n', (evts' = evts ∨ evts' = evts ++ [evt]) ∧
      KernelLife evts' app' n' new
        (exits ++ [(path, (old.any fun fs => !fs.state.isTerminal) && path.app.isSome)]) := by
  cases hflow with
  | first =>
    obtain ⟨rfl, rfl⟩ := h.absent rfl
    exact ⟨[evt], 0, 0, .inr rfl, h.first p evt⟩
  | unstored hfull => exact absurd hfull (hstored rfl)
  | decided fs hterm =>
    refine ⟨evts, app, n + 1, .inl rfl, ?_⟩
    rw [Option.any_some, hterm]
    exact h.cached hterm
  | learned fs v hopen hv =>
    refine ⟨evts, v, 1, .inl rfl, ?_⟩
    rw [Option.any_some, hopen]
    exact h.leaves hopen (hverdict v hv) rfl (.inl rfl) rfl rfl
  | gaveUp fs hopen hv hlast =>
    refine ⟨evts, 0, 1, .inl rfl, ?_⟩
    rw [Option.any_some, hopen]
    exact h.leaves hopen (by decide) rfl (.inr rfl) rfl rfl
  | pending fs hopen hv hmore =>
    refine ⟨evts ++ [evt], app, n, .inr rfl, ?_⟩
    rw [Option.any_some, hopen]
    exact h.pending evt hopen hmore

end Step

/-! ### Runs -/

/-- The exits of the packets of the flow `k`, and which of them count the flow. -/
def exitsOf (k : FlowKey) (outs : List (Option (PktOut × Bool))) : List (PktPath × Bool) :=
  (outs.reduceOption.filter fun o => o.1.key = k).map fun o => (o.1.path, o.2)

/-- The operation writes no verdict of the flow `k` that is without a counter. -/
def KernelOp.WritesBelow (k : FlowKey) : KernelOp → Prop
  | .packet _ => True
  | .verdict k' app => k' = k → app.toNat < appCounterEntries

/-- The verdict of the flow `k` in the verdict map has a counter. -/
def Kernel.VerdictBelow (s : Kernel) (k : FlowKey) : Prop :=
  ∀ v, s.verdictMap.lookup k = some v → v.toNat < appCounterEntries

namespace Kernel

theorem exitsOf_append (k : FlowKey) (outs outs' : List (Option (PktOut × Bool))) :
    exitsOf k (outs ++ outs') = exitsOf k outs ++ exitsOf k outs' := by
  rw [exitsOf, List.reduceOption_append, List.filter_append, List.map_append]
  rfl

theorem VerdictBelow.next {s : Kernel} {k : FlowKey} (h : s.VerdictBelow k) {op : KernelOp}
    (hop : op.WritesBelow k) : (s.next op).VerdictBelow k := by
  cases op with
  | packet p =>
    cases hparse : parsePkt p.skb with
    | none =>
      rw [Kernel.next, step, processPkt_of_none hparse]
      exact h
    | some r =>
      rw [Kernel.next, step, processPkt_of_some hparse, VerdictBelow, processFlow_verdictMap]
      exact h
  | verdict k' app =>
    intro v hv
    rw [Kernel.next, step] at hv
    dsimp only [writeVerdict] at hv
    cases hupdate : s.verdictMap.update k' app with
    | none =>
      rw [hupdate] at hv
      exact h v hv
    | some m =>
      rw [hupdate, Option.getD_some, BoundedMap.lookup_update hupdate] at hv
      split at hv
      case isTrue hk =>
        rw [← Option.some.inj hv]
        exact hop hk.symm
      case isFalse => exact h v hv

theorem fst_runOut_creditStep (s : Kernel) (ops : List KernelOp) :
    (runOut creditStep s ops).1 = run next s ops :=
  fst_runOut creditStep s ops

/-- The exits of a packet of the flow `k`, from any state. -/
theorem exitsOf_creditStep (s : Kernel) {op : KernelOp} {k : FlowKey} {path : PktPath}
    (h : pathsOf k [(s.step op).2] = [path]) :
    exitsOf k [(s.creditStep op).2] = [(path, s.isOpen k && path.app.isSome)] := by
  rw [creditStep]
  cases ho : (s.step op).2 with
  | none => simp [ho, pathsOf, List.reduceOption] at h
  | some o =>
    rw [ho] at h
    by_cases hk : o.key = k
    · subst hk
      simp only [pathsOf, List.reduceOption, List.filterMap_cons, id_eq, List.filterMap_nil,
        List.filter_cons, decide_true, if_true, List.filter_nil, List.map_cons, List.map_nil,
        List.cons.injEq, and_true] at h
      simp [exitsOf, List.reduceOption, isNewFlow, h]
    · simp [pathsOf, List.reduceOption, hk] at h

theorem exitsOf_eq_nil (s : Kernel) {op : KernelOp} {k : FlowKey}
    (h : pathsOf k [(s.step op).2] = []) : exitsOf k [(s.creditStep op).2] = [] := by
  rw [creditStep]
  cases ho : (s.step op).2 with
  | none => rfl
  | some o =>
    rw [ho] at h
    have hk : o.key ≠ k := by
      rintro rfl
      simp [pathsOf, List.reduceOption] at h
    simp [exitsOf, List.reduceOption, hk]

/-- The exits of a flow that is new at the start of a run and always stored. -/
theorem exists_kernelLife_run {k : FlowKey} {s : Kernel} (hnew : s.flowMap.lookup k = none)
    (hverdict : s.VerdictBelow k) {ops : List KernelOp}
    (hwrites : ∀ op ∈ ops, op.WritesBelow k) (hstores : Along next (StoresFlow k) s ops) :
    (run next s ops).VerdictBelow k ∧ ∃ evts app n,
      KernelLife evts app n ((run next s ops).flowMap.lookup k)
        (exitsOf k (runOut creditStep s ops).2) ∧
      ((∀ p, .packet p ∈ ops → p.reserve = true) → ∀ e ∈ evts, e.isSome = true) := by
  induction ops using List.reverseRecOn with
  | nil =>
    refine ⟨hverdict, [], 0, 0, ?_, fun _ e he => absurd he List.not_mem_nil⟩
    rw [run_nil, hnew]
    exact kernelLife_unseen
  | append_singleton ops op ih =>
    obtain ⟨hstores, hlast, -⟩ := along_append.mp hstores
    obtain ⟨hbelow, evts, app, n, hlife, hroom⟩ :=
      ih (fun op hop => hwrites op (List.mem_append_left _ hop)) hstores
    have hwrite : op.WritesBelow k :=
      hwrites op (List.mem_append_right _ (List.mem_singleton_self op))
    rw [run_concat, runOut_append, exitsOf_append, fst_runOut_creditStep]
    generalize run next s ops = s' at *
    refine ⟨hbelow.next hwrite, ?_⟩
    change ∃ evts app n, KernelLife evts app n _ (_ ++ exitsOf k [(s'.creditStep op).2]) ∧ _
    rcases s'.step_flow op k with ⟨hnone, hlookup⟩ | ⟨p, tot, path, rfl, hparse, hout, hflow⟩
    · refine ⟨evts, app, n, ?_, fun hreserve => hroom fun p hp => hreserve p ?_⟩
      · rw [exitsOf_eq_nil s' hnone, hlookup, List.append_nil]
        exact hlife
      · exact List.mem_append_left _ hp
    · have hstored : s'.flowMap.lookup k = none → ¬s'.flowMap.IsFull := hlast (by rw [hparse]; rfl)
      obtain ⟨evts', app', n', hevts, hlife'⟩ := hlife.step hflow hstored hbelow
      rw [exitsOf_creditStep s' hout]
      refine ⟨evts', app', n', hlife', fun hreserve e he => ?_⟩
      have hold := hroom fun p hp => hreserve p (List.mem_append_left _ hp)
      rcases hevts with rfl | rfl
      · exact hold e he
      · rcases List.mem_append.mp he with he | he
        · exact hold e he
        · rw [List.mem_singleton.mp he, Pkt.event,
            if_pos (hreserve p (List.mem_append_right _ (List.mem_singleton_self _)))]
          rfl

/-- A decided entry stays, with its decision. -/
theorem decided_next (s : Kernel) (op : KernelOp) {k : FlowKey} {fs : ObsFlowState}
    (hfs : s.flowMap.lookup k = some fs) (hterm : fs.state.isTerminal = true) :
    ∃ fs', (s.next op).flowMap.lookup k = some fs' ∧ fs'.state = fs.state ∧
      fs'.appId = fs.appId ∧ fs'.pktCount = fs.pktCount := by
  rcases s.step_flow op k with ⟨-, hlookup⟩ | ⟨p, tot, path, rfl, -, -, hflow⟩
  · exact ⟨fs, hlookup.trans hfs, rfl, rfl, rfl⟩
  · rw [hfs] at hflow
    generalize (s.next (.packet p)).flowMap.lookup k = new at hflow
    cases hflow with
    | decided fs h => exact ⟨_, rfl, rfl, rfl, rfl⟩
    | learned fs v hopen | gaveUp fs hopen | pending fs hopen => simp [hterm] at hopen

/-- **The account of a flow.** A flow that is new at the start of a run, in which its packets find
it stored or the flow map with room and its verdicts have counters, hands some packets to the
ring buffer, at most seven, and then counts all others under one application: once each, and the
flow with the first of them. Its entry has counted exactly these packets, at most eight of them
for classification, it is decided once a packet is counted, and a decision stays. The counters of
the applications are the sums of the credits of all packets. When the ring buffer always has
room, every packet handed to it is submitted. -/
theorem flow_account_run (k : FlowKey) (s : Kernel) (ops : List KernelOp)
    (hnew : s.flowMap.lookup k = none) (hverdict : s.VerdictBelow k)
    (hwrites : ∀ op ∈ ops, op.WritesBelow k) (hstores : Along next (StoresFlow k) s ops) :
    let s' := run next s ops
    (∃ (evts : List (Option FlowEvent)) (app : UInt16) (n : ℕ),
      exitsOf k (runOut creditStep s ops).2 =
        evts.map (fun e => (.ring e, false)) ++ countedUnder app n ∧
      evts.length < flowMaxClassifyPkts.toNat ∧ app.toNat < appCounterEntries ∧
      ((∀ p, .packet p ∈ ops → p.reserve = true) → ∀ e ∈ evts, e.isSome = true) ∧
      (s'.flowMap.lookup k = none → evts = [] ∧ n = 0) ∧
      ∀ fs, s'.flowMap.lookup k = some fs →
        fs.packets = UInt64.ofNat (evts.length + n) ∧
        fs.pktCount.toNat ≤ flowMaxClassifyPkts.toNat ∧
        (n = 0 → fs.state = .classifying) ∧
        (n ≠ 0 → fs.state.isTerminal = true ∧ fs.appId = app)) ∧
    (∀ op fs, s'.flowMap.lookup k = some fs → fs.state.isTerminal = true →
      ∃ fs', (s'.next op).flowMap.lookup k = some fs' ∧ fs'.state = fs.state ∧
        fs'.appId = fs.appId ∧ fs'.pktCount = fs.pktCount) ∧
    ∀ cpu i, s'.counters cpu i = s.counters cpu i +
      ((runOut creditStep s ops).2.reduceOption.map fun o => o.1.credit o.2 cpu i).sum := by
  intro s'
  refine ⟨?_, fun op fs => s'.decided_next op, s.counters_run ops⟩
  obtain ⟨-, evts, app, n, h, hroom⟩ := exists_kernelLife_run hnew hverdict hwrites hstores
  exact ⟨evts, app, n, h.exits_eq, h.length_lt, h.app_lt, hroom, h.absent, fun fs hfs =>
    ⟨h.packets_eq fs hfs, h.pktCount_le fs hfs, fun hn => (h.undecided fs hfs hn).1,
      h.decided fs hfs⟩⟩

/-- Nine packets of a flow, with a verdict behind the second. -/
def verdictBehindTwo : List KernelOp :=
  [.packet udpPkt, .packet udpPkt, .verdict udpKey 7] ++ List.replicate 7 (.packet udpPkt)

/-- The account of the nine packets. -/
theorem flow_account_run_udp : ∃ (evts : List (Option FlowEvent)) (app : UInt16) (n : ℕ),
    exitsOf udpKey (runOut creditStep {} verdictBehindTwo).2 =
      evts.map (fun e => (.ring e, false)) ++ countedUnder app n := by
  have hwrites : ∀ op ∈ verdictBehindTwo, op.WritesBelow udpKey := by
    simp [verdictBehindTwo, KernelOp.WritesBelow, appCounterEntries]
  have hstores : Along next (StoresFlow udpKey) {} verdictBehindTwo := by decide +kernel
  obtain ⟨⟨evts, app, n, hexits, -⟩, -⟩ :=
    flow_account_run udpKey {} verdictBehindTwo rfl nofun hwrites hstores
  exact ⟨evts, app, n, hexits⟩

/-- A packet for which the ring buffer has no room is counted in its entry, but it is neither
submitted nor counted under an application. -/
theorem lost_packet_unaccounted :
    ¬∀ (k : FlowKey) (s : Kernel) (ops : List KernelOp), s.flowMap.lookup k = none →
      s.VerdictBelow k → (∀ op ∈ ops, op.WritesBelow k) → Along next (StoresFlow k) s ops →
      packetsOf ((run next s ops).flowMap.lookup k) =
        UInt64.ofNat ((exitsOf k (runOut creditStep s ops).2).countP fun x =>
          x.1.event.isSome || x.1.app.isSome) := by
  intro h
  have hone := h udpKey {} [.packet { udpPkt with reserve := false }] rfl nofun
    (by simp [KernelOp.WritesBelow]) (by decide +kernel)
  revert hone
  decide +kernel

end Kernel

end NdpiObserve
