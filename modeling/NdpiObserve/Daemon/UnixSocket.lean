import NdpiObserve.Daemon.MergedCounters
import NdpiObserve.Library.InsertionSort

/-!
# Reports on the control socket

`handle_show_stats` and `handle_show_applications` of `daemon/unix_socket.c`. They read the
counters of the kernel as `write_metrics` does, so what they read besides the engine is a
`MetricsIn`, of which they do not use the time and the process. A reply is the list of what its
`dprintf`s print.

The applications are reported by their merged bytes: an array of the ids is sorted in place, and
the rows are printed from its start on, without those of applications that have no bytes, until
there are enough of them.

## Main definitions

* `handleShowStats`: the totals.
* `handleShowApplications`: the applications with the most bytes.

## Main results

* `show_applications_top`: which applications are printed, and in which order.
-/

namespace NdpiObserve

open Floats InsertionSort

/-! ### Formats -/

/-- `%6s` and such: at least `width` bytes, with the spaces in front. -/
def padLeft (width : ℕ) (s : Bytes) : Bytes := List.replicate (width - s.length) 32 ++ s

/-- `%-30s` and such: at least `width` bytes, with the spaces behind. -/
def padRight (width : ℕ) (s : Bytes) : Bytes := s ++ List.replicate (width - s.length) 32

/-- `%.1f` of a number of tenths. -/
def fixed1 (n : ℕ) : Bytes := decimal (n / 10) ++ text "." ++ decimal (n % 10)

/-! ### The totals -/

/-- `handle_show_stats`. -/
def handleShowStats (e : Engine) (i : MetricsIn) : List Bytes :=
  [text "flows created:     " ++ decimal e.flows.totalCreated.toNat ++ text "\n" ++
    text "flows classified:  " ++ decimal e.flowsClassified.toNat ++ text "\n" ++
    text "flows guessed:     " ++ decimal e.flowsGuessed.toNat ++ text "\n" ++
    text "flows ml:          " ++ decimal e.flowsMlClassified.toNat ++ text "\n" ++
    text "flows gave up:     " ++ decimal e.flowsGaveUp.toNat ++ text "\n" ++
    text "flows active:      " ++ decimal e.flows.count.toNat ++ text "\n" ++
    text "packets scanned:   " ++ decimal e.pktsScanned.toNat ++ text "\n" ++
    text "packets fastpath:  " ++ decimal (i.fastpath ObsAppCnt.packets).toNat ++ text "\n" ++
    text "nDPI calls:        " ++ decimal e.ndpiCalls.toNat ++ text "\n"]

/-! ### The applications -/

/-- The ids in the order of their bytes. -/
def appOrder (bytes : Fin numApps → UInt64) : List (Fin numApps) :=
  (insertionSort (fun id => (bytes id).toNat) (Vector.ofFn fun id : Fin numApps => id)).toList

/-- The applications whose rows are printed, from the rest of the order on. -/
def shownApps (bytes : Fin numApps → UInt64) (topN : ℤ) : ℤ → List (Fin numApps) →
    List (Fin numApps)
  | _, [] => []
  | shown, id :: rest =>
    if shown < topN then
      if bytes id = 0 then shownApps bytes topN shown rest
      else id :: shownApps bytes topN (shown + 1) rest
    else []

/-- The first line of the report. -/
def applicationsHead : Bytes :=
  padRight 30 (text "Application") ++ text " " ++ padLeft 6 (text "Flows") ++ text " " ++
    padLeft 10 (text "Packets") ++ text " " ++ padLeft 15 (text "Bytes") ++ text " " ++
    padLeft 8 (text "%") ++ text "\n"

/-- The percentage of an application, in the tenths that `%.1f` prints. -/
def tenths (bytes total : UInt64) : ℕ :=
  let pct :=
    if total > 0 then
      binary64.round
        (binary64.round (binary64.round bytes.toNat * 100) / binary64.round total.toNat)
    else 0
  (roundEven (10 * pct)).toNat

example : tenths 1 3 = 333 ∧ tenths 1 2000 = 1 := by decide +kernel

/-- The row of an application. -/
def applicationRow (env : Env) (e : Engine) (i : MetricsIn) (id : Fin numApps) : Bytes :=
  let bytes := i.merged e.appBytes ObsAppCnt.bytes
  let totalBytes := (List.finRange numApps).foldl (fun sum id => sum + bytes id) 0
  padRight 30 (cString (e.appName env id)) ++ text " " ++
    padLeft 6 (decimal (i.merged e.appFlows ObsAppCnt.flows id).toNat) ++ text " " ++
    padLeft 10 (decimal (i.merged e.appPackets ObsAppCnt.packets id).toNat) ++ text " " ++
    padLeft 15 (decimal (bytes id).toNat) ++ text " " ++
    padLeft 7 (fixed1 (tenths (bytes id) totalBytes)) ++ text "%\n"

/-- `handle_show_applications`. -/
def handleShowApplications (env : Env) (e : Engine) (i : MetricsIn) (topN : ℤ) : List Bytes :=
  let bytes := i.merged e.appBytes ObsAppCnt.bytes
  let shown := shownApps bytes topN 0 (appOrder bytes)
  applicationsHead :: shown.map (applicationRow env e i) ++
    if shown = [] then [text "(no classified flows yet)\n"] else []

/-! ### The order of the rows -/

/-- The list of all applications, the one with more bytes first, and of two with the same bytes
the one with the smaller id. -/
structure Ranking (bytes : Fin numApps → UInt64) (l : List (Fin numApps)) : Prop where
  perm : l.Perm (List.finRange numApps)
  sorted : l.Pairwise fun a b => bytes b < bytes a ∨ bytes a = bytes b ∧ a < b

variable {bytes : Fin numApps → UInt64} {l l' : List (Fin numApps)}

/-- There is one ranking. -/
theorem Ranking.eq (h : Ranking bytes l) (h' : Ranking bytes l') : l = l' := by
  refine (h.perm.trans h'.perm.symm).eq_of_pairwise (fun a b _ _ hab hba => ?_) h.sorted h'.sorted
  simp only [UInt64.lt_iff_toNat_lt, ← UInt64.toNat_inj] at hab hba
  omega

theorem Ranking.nodup (h : Ranking bytes l) : l.Nodup :=
  h.perm.nodup_iff.mpr (List.nodup_finRange numApps)

/-- The sort ranks the applications. -/
theorem ranking_appOrder (bytes : Fin numApps → UInt64) : Ranking bytes (appOrder bytes) := by
  have hids : (Vector.ofFn fun id : Fin numApps => id).toList = List.finRange numApps := by
    rw [Vector.toList_ofFn]
    exact List.ofFn_id numApps
  constructor
  · have hperm := perm_insertionSort (fun id => (bytes id).toNat)
      (Vector.ofFn fun id : Fin numApps => id)
    rwa [hids] at hperm
  · have hstart : (Vector.ofFn fun id : Fin numApps => id).toList.Pairwise (· < ·) := by
      rw [hids]
      exact List.pairwise_lt_finRange numApps
    refine (pairwise_insertionSort (f := fun id => (bytes id).toNat) hstart).imp ?_
    rintro a b (hlt | ⟨heq, hab⟩)
    · exact .inl (UInt64.lt_iff_toNat_lt.mpr hlt)
    · exact .inr ⟨UInt64.toNat_inj.mp heq, hab⟩

/-- The loop over the order prints the first applications that have bytes. -/
theorem shownApps_eq (bytes : Fin numApps → UInt64) (topN shown : ℤ) (l : List (Fin numApps)) :
    shownApps bytes topN shown l =
      (l.filter fun id => bytes id ≠ 0).take (topN - shown).toNat := by
  induction l generalizing shown with
  | nil => simp [shownApps]
  | cons id l ih =>
    rw [shownApps]
    split
    case isTrue hlt =>
      split
      case isTrue hzero => rw [ih, List.filter_cons_of_neg (by simpa using hzero)]
      case isFalse hne =>
        have hroom : (topN - shown).toNat = (topN - (shown + 1)).toNat + 1 := by omega
        rw [ih, List.filter_cons_of_pos (by simpa using hne), hroom, List.take_succ_cons]
    case isFalse hge =>
      have hroom : (topN - shown).toNat = 0 := by omega
      rw [hroom, List.take_zero]

/-- In a ranking, the applications that have bytes come first. -/
theorem Ranking.shownApps_eq (h : Ranking bytes l) (topN : ℤ) : shownApps bytes topN 0 l =
    l.take (min topN.toNat (Finset.univ.filter fun id => bytes id ≠ 0).card) := by
  have hfirst : l.Pairwise fun a b =>
      decide (bytes b ≠ 0) = true → decide (bytes a ≠ 0) = true := by
    refine h.sorted.imp fun {a b} hab hb => ?_
    simp only [decide_eq_true_iff, ne_eq, UInt64.lt_iff_toNat_lt, ← UInt64.toNat_inj,
      UInt64.toNat_zero] at *
    omega
  have hcount : l.countP (fun id => decide (bytes id ≠ 0)) =
      (Finset.univ.filter fun id => bytes id ≠ 0).card := by
    rw [h.perm.countP_eq, List.countP_eq_length_filter]
    rfl
  rw [NdpiObserve.shownApps_eq, filter_eq_take_countP hfirst, hcount, List.take_take, sub_zero]

/-- **The report.** Its rows are those of the first applications of the ranking by merged bytes:
as many as are asked for, or all that have bytes. No application has two rows, and none without a
row has more bytes than one with a row. -/
theorem show_applications_top (env : Env) (e : Engine) (i : MetricsIn) (topN : ℤ) :
    let bytes := i.merged e.appBytes ObsAppCnt.bytes
    ∃ ranked, Ranking bytes ranked ∧ (∀ l, Ranking bytes l → l = ranked) ∧
      let top := ranked.take (min topN.toNat (Finset.univ.filter fun id => bytes id ≠ 0).card)
      handleShowApplications env e i topN = applicationsHead :: top.map (applicationRow env e i) ++
        (if top = [] then [text "(no classified flows yet)\n"] else []) ∧
      top.Nodup ∧ ∀ id ∈ top, ∀ other ∉ top, bytes other ≤ bytes id := by
  intro bytes
  have hranked : Ranking bytes (appOrder bytes) := ranking_appOrder bytes
  refine ⟨appOrder bytes, hranked, fun l hl => hl.eq hranked, ?_⟩
  intro top
  have htop : shownApps bytes topN 0 (appOrder bytes) = top := hranked.shownApps_eq topN
  refine ⟨?_, hranked.nodup.sublist (List.take_sublist _ _), fun id hid other hother => ?_⟩
  · rw [← htop]
    rfl
  · have hmem : other ∈ appOrder bytes := hranked.perm.mem_iff.mpr (List.mem_finRange other)
    have hahead := rel_of_mem_take hranked.sorted hid hmem hother
    simp only [UInt64.lt_iff_toNat_lt, UInt64.le_iff_toNat_le, ← UInt64.toNat_inj] at hahead ⊢
    omega

end NdpiObserve
