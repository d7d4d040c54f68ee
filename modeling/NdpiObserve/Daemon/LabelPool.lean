import NdpiObserve.Library.InternPool
import NdpiObserve.Daemon.Hostnames

/-!
# The pool of dynamic labels

On hostnames that nDPI does not know, `engine_get_dyn_app` interns a word of the hostname in the
pool of 64 labels. The word is found by scanning backwards through a bounded copy of the hostname;
on the hostnames of at least two labels it is the second-level label with a capital letter.

## Main definitions

* `PoolHost`: a hostname that reaches the pool, given by its labels.
* `fillPool`: the pool after some calls of `engine_get_dyn_app`.

## Main results

* `PoolHost.sldWord_host`: the word of a hostname is its second-level label.
* `PoolHost.engineGetDynApp_eq`: `engine_get_dyn_app` interns the word.
* `label_pool_run`: the pool after any calls.
-/

namespace NdpiObserve

open InternPool

/-! ### Hostnames -/

/-- The hostname of the labels, with or without a dot at the end. -/
def hostOf (labels : List Bytes) (dot : Bool) : Bytes :=
  List.intercalate [46] labels ++ if dot then [46] else []

/-- The hostname is neither local nor a reverse lookup. -/
def PassesFilters (host : Bytes) : Prop :=
  ¬(tldOf host = text "local" ∨ tldOf host = text "localdomain") ∧
    ¬(strstr (text ".arpa") host = true ∨ strstr (text ".in-addr.") host = true)

/-- A hostname for the pool: at least two labels, fewer than 80 bytes, none of the filtered ones,
and unknown to nDPI. -/
structure PoolHost (env : Env) where
  labels : List Bytes
  dot : Bool
  two_le : 2 ≤ labels.length
  label : ∀ l ∈ labels, l ≠ [] ∧ 46 ∉ l ∧ 0 ∉ l ∧ l.length ≤ 63
  length_lt : (hostOf labels dot).length < 80
  passes : PassesFilters (hostOf labels dot)
  unknown : ¬env.Knows (hostOf labels dot)

namespace PoolHost

variable {env : Env}

def host (h : PoolHost env) : Bytes := hostOf h.labels h.dot

/-- The second-level label. -/
def sld (h : PoolHost env) : Bytes := h.labels.getD (h.labels.length - 2) []

end PoolHost

/-! ### Interning -/

/-- The id of a place in the pool. -/
def idOf : Option ℕ → UInt16
  | none => 0
  | some i => UInt16.ofNat (400 + i)

/-- A hostname with a dot that passes the filters and that nDPI does not know has its word
interned. -/
theorem engineGetDynApp_of_unknown {env : Env} {host : Bytes} (hdots : 46 ∈ host)
    (hpasses : PassesFilters host) (hunknown : ¬env.Knows host) (labels : List Bytes) :
    engineGetDynApp env labels host =
      ((intern 64 labels (sldWord host)).1, idOf (intern 64 labels (sldWord host)).2) := by
  have htake : (sldWord host).take 63 = sldWord host :=
    List.take_of_length_le (length_sldWord_le host)
  rw [engineGetDynApp, if_neg (List.ne_nil_of_mem hdots), if_neg (not_not.mpr hdots),
    if_neg hpasses.1, if_neg hpasses.2]
  have hno := hunknown
  rw [Env.Knows] at hno
  dsimp only [intern]
  rw [if_neg hno, cleanLabel_eq_sldWord hunknown, htake]
  cases labels.findIdx? (· = sldWord host) with
  | some i => rfl
  | none =>
    dsimp only
    split <;> rfl

/-- **What a hostname does to the pool.** It is filtered out, or nDPI knows it, or its word is
interned. Which of these it is does not depend on the pool. -/
theorem engineGetDynApp_forms (env : Env) (host : Bytes) :
    (∀ labels, engineGetDynApp env labels host = (labels, 0)) ∨
    (∀ labels, engineGetDynApp env labels host = (labels, env.matchStringSubprotocol host)) ∨
    ∀ labels, engineGetDynApp env labels host =
      ((intern 64 labels (sldWord host)).1, idOf (intern 64 labels (sldWord host)).2) := by
  by_cases hdots : 46 ∈ host
  case neg =>
    refine .inl fun labels => ?_
    rw [engineGetDynApp, if_pos hdots, ite_self]
  by_cases htld : tldOf host = text "local" ∨ tldOf host = text "localdomain"
  case pos =>
    refine .inl fun labels => ?_
    rw [engineGetDynApp, if_neg (List.ne_nil_of_mem hdots), if_neg (not_not.mpr hdots),
      if_pos htld]
  by_cases harpa : strstr (text ".arpa") host = true ∨ strstr (text ".in-addr.") host = true
  case pos =>
    refine .inl fun labels => ?_
    rw [engineGetDynApp, if_neg (List.ne_nil_of_mem hdots), if_neg (not_not.mpr hdots),
      if_neg htld, if_pos harpa]
  by_cases hknown : env.Knows host
  case pos =>
    refine .inr (.inl fun labels => ?_)
    rw [engineGetDynApp, if_neg (List.ne_nil_of_mem hdots), if_neg (not_not.mpr hdots),
      if_neg htld, if_neg harpa]
    exact if_pos hknown
  exact .inr (.inr (engineGetDynApp_of_unknown hdots ⟨htld, harpa⟩ hknown))

/-! ### The second-level label -/

/-- The backward scan stops at a dot or at the start. -/
theorem prevDot_eq {buf : Bytes} {m n : ℕ} (hmn : m ≤ n)
    (hfree : ∀ i, m < i → i ≤ n → buf[i]? ≠ some 46) (hm : m = 0 ∨ buf[m]? = some 46) :
    prevDot buf n = m := by
  induction n with
  | zero => exact (Nat.le_zero.mp hmn).symm
  | succ n ih =>
    rw [prevDot]
    rcases Nat.lt_or_ge n m with hlt | hge
    · have heq : m = n + 1 := by omega
      rw [← heq, if_pos (hm.resolve_left (by omega))]
    · rw [if_neg (hfree (n + 1) (by omega) le_rfl)]
      exact ih hge fun i hi hle => hfree i hi (by omega)

/-- The last dot of a name. -/
theorem findIdx?_reverse {s t : Bytes} (ht : 46 ∉ t) :
    (s ++ 46 :: t).reverse.findIdx? (· = 46) = some t.length := by
  rw [List.reverse_append, List.reverse_cons, List.append_assoc]
  refine List.findIdx?_eq_some_iff_getElem.mpr ⟨by simp, by simp, fun j hj => ?_⟩
  have hlt : j < t.reverse.length := by rwa [List.length_reverse]
  rw [List.getElem_append_left hlt]
  have hmem : t.reverse[j] ∈ t := List.mem_reverse.mp (List.getElem_mem hlt)
  rw [decide_eq_true_iff]
  exact fun heq => ht (heq ▸ hmem)

/-- The second-level label starts behind the labels before it. -/
theorem sldStart_eq {s a b : Bytes} (hs : s = [] ∨ s.getLast? = some 46) (ha : a ≠ [])
    (hdot : 46 ∉ a) (hb : 46 ∉ b) : sldStart (s ++ a ++ 46 :: b) = s.length := by
  have hpos : 0 < a.length := List.length_pos_of_ne_nil ha
  have hlast : (s ++ a ++ 46 :: b).length - 1 - b.length = s.length + a.length := by
    simp only [List.length_append, List.length_cons]
    omega
  have hat {i : ℕ} (hi : i < a.length) :
      (s ++ a ++ 46 :: b)[s.length + i]? = some a[i] := by
    rw [List.append_assoc, List.getElem?_append_right (Nat.le_add_right _ _),
      Nat.add_sub_cancel_left, List.getElem?_append_left hi, List.getElem?_eq_getElem]
  have hfree {i : ℕ} (hi : i < a.length) :
      (s ++ a ++ 46 :: b)[s.length + i]? ≠ some 46 := by
    rw [hat hi]
    exact fun heq => hdot (Option.some.inj heq ▸ List.getElem_mem hi)
  rw [sldStart, findIdx?_reverse hb]
  dsimp only
  rw [hlast, if_neg (by omega)]
  cases s using List.reverseRecOn with
  | nil =>
    have hprev : prevDot ([] ++ a ++ 46 :: b) (([] : Bytes).length + a.length - 1) = 0 := by
      refine prevDot_eq (Nat.zero_le _) (fun i _ hi => ?_) (.inl rfl)
      have h := hfree (i := i) (by rw [List.length_nil] at hi; omega)
      rwa [List.length_nil, Nat.zero_add] at h
    have hzero := hfree hpos
    rw [List.length_nil, Nat.zero_add] at hzero
    rw [hprev, if_neg hzero]
    rfl
  | append_singleton s x _ =>
    have hx : x = 46 := by
      rcases hs with hs | hs
      · simp at hs
      · rw [List.getLast?_concat] at hs
        exact Option.some.inj hs
    subst hx
    have hdotAt : (s ++ [46] ++ a ++ 46 :: b)[s.length]? = some 46 := by
      rw [List.append_assoc, List.append_assoc, List.getElem?_append_right le_rfl, Nat.sub_self]
      rfl
    have hprev : prevDot (s ++ [46] ++ a ++ 46 :: b) ((s ++ [46]).length + a.length - 1) =
        s.length := by
      refine prevDot_eq (by rw [List.length_append]; omega) (fun i hi hle => ?_) (.inr hdotAt)
      have h := hfree (i := i - (s ++ [46]).length)
        (by rw [List.length_append, List.length_singleton] at *; omega)
      rwa [Nat.add_sub_cancel' (by rw [List.length_append, List.length_singleton]; omega)] at h
    rw [hprev, if_pos hdotAt, List.length_append]
    rfl

/-- **The word of a name.** It is the second-level label, with a capital letter. -/
theorem sldWord_eq {s a b : Bytes} (hs : s = [] ∨ s.getLast? = some 46) (ha : a ≠ [])
    (hdot : 46 ∉ a) (hlen : a.length ≤ 63) (hb : 46 ∉ b) (hne : b ≠ []) (dot : Bool)
    (hlt : (s ++ a ++ 46 :: b ++ if dot then [46] else []).length < 80) :
    sldWord (s ++ a ++ 46 :: b ++ if dot then [46] else []) = capitalize a := by
  have hlast : (s ++ a ++ 46 :: b).getLast? ≠ some 46 := by
    rw [List.getLast?_append_of_ne_nil _ (List.cons_ne_nil 46 b), List.getLast?_cons_of_ne_nil hne,
      List.getLast?_eq_some_getLast hne]
    exact fun heq => hb (Option.some.inj heq ▸ List.getLast_mem hne)
  have hbuf : (if (s ++ a ++ 46 :: b ++ if dot then [46] else []).getLast? = some 46 then
      (s ++ a ++ 46 :: b ++ if dot then [46] else []).dropLast
      else (s ++ a ++ 46 :: b ++ if dot then [46] else [])) = s ++ a ++ 46 :: b := by
    cases dot with
    | true =>
      rw [if_pos rfl, List.getLast?_concat, if_pos rfl, List.dropLast_concat]
    | false =>
      rw [if_neg Bool.false_ne_true, List.append_nil, if_neg hlast]
  rw [sldWord, List.take_of_length_le (by omega)]
  rw [hbuf, if_neg (by simp), sldStart_eq hs ha hdot hb, List.append_assoc, List.drop_left,
    List.takeWhile_append_of_pos fun x hx => by simpa using fun heq : x = 46 => hdot (heq ▸ hx)]
  simp [List.take_of_length_le hlen]

namespace PoolHost

variable {env : Env}

/-- The label that stands for the hostname. -/
def word (h : PoolHost env) : Bytes := capitalize h.sld

theorem intercalate_concat (init : List Bytes) (a b : Bytes) :
    List.intercalate [46] (init ++ [a] ++ [b]) = init.flatMap (· ++ [46]) ++ a ++ 46 :: b := by
  induction init with
  | nil => simp
  | cons x init ih =>
    rw [List.cons_append, List.cons_append, List.intercalate_cons_of_ne_nil (by simp), ih,
      List.flatMap_cons]
    simp only [List.append_assoc]

/-- The hostname around its second-level label. -/
theorem host_eq (h : PoolHost env) : ∃ s b, h.sld ∈ h.labels ∧ b ∈ h.labels ∧
    (s = [] ∨ s.getLast? = some 46) ∧
    h.host = s ++ h.sld ++ 46 :: b ++ if h.dot then [46] else [] := by
  obtain ⟨labels, dot, htwo, -, -, -, -⟩ := h
  cases labels using List.reverseRecOn with
  | nil => simp at htwo
  | append_singleton labels b _ =>
    cases labels using List.reverseRecOn with
    | nil => simp at htwo
    | append_singleton init a _ =>
      have hsld : (init ++ [a] ++ [b]).getD ((init ++ [a] ++ [b]).length - 2) [] = a := by
        simp
      refine ⟨init.flatMap (· ++ [46]), b, ?_, by simp, ?_, ?_⟩
      · rw [sld, hsld]
        simp
      · cases init using List.reverseRecOn with
        | nil => exact .inl rfl
        | append_singleton init x _ =>
          refine .inr ?_
          rw [List.flatMap_append, List.flatMap_singleton, ← List.append_assoc,
            List.getLast?_concat]
      · rw [host, hostOf, intercalate_concat, sld, hsld]

/-- **The word of a hostname.** The code finds the second-level label. -/
theorem sldWord_host (h : PoolHost env) : sldWord h.host = h.word := by
  obtain ⟨s, b, ha, hb, hs, heq⟩ := h.host_eq
  obtain ⟨hne, hdot, -, hlen⟩ := h.label _ ha
  obtain ⟨hne', hdot', -, -⟩ := h.label _ hb
  have hlt : h.host.length < 80 := h.length_lt
  rw [heq] at hlt ⊢
  exact sldWord_eq hs hne hdot hlen hdot' hne' h.dot hlt

/-- **Interning.** `engine_get_dyn_app` interns the word of the hostname in a pool of 64. -/
theorem engineGetDynApp_eq (h : PoolHost env) (labels : List Bytes) :
    engineGetDynApp env labels h.host =
      ((intern 64 labels h.word).1, idOf (intern 64 labels h.word).2) := by
  have hdots : 46 ∈ h.host := by
    obtain ⟨s, b, -, -, -, heq⟩ := h.host_eq
    rw [heq]
    simp
  rw [engineGetDynApp_of_unknown hdots h.passes h.unknown, h.sldWord_host]

end PoolHost

/-! ### The pool -/

/-- The pool after calls for the hostnames. -/
def fillPool (env : Env) (labels : List Bytes) (hosts : List (PoolHost env)) : List Bytes :=
  hosts.foldl (fun labels h => (engineGetDynApp env labels h.host).1) labels

theorem fillPool_eq {env : Env} (labels : List Bytes) (hosts : List (PoolHost env)) :
    fillPool env labels hosts = fill 64 labels (hosts.map PoolHost.word) := by
  rw [fillPool, fill, List.foldl_map]
  simp only [PoolHost.engineGetDynApp_eq]

theorem toNat_idOf {i : ℕ} (hi : i < 64) : (idOf (some i)).toNat = 400 + i := by
  rw [idOf, UInt16.toNat_ofNat', Nat.mod_eq_of_lt (by omega)]

/-- The id of a label has the label as its name. -/
theorem ndpiEngineAppName_idOf (env : Env) {labels : List Bytes} {i : ℕ} {l : Bytes}
    (hlen : labels.length ≤ 64) (hi : labels[i]? = some l) :
    ndpiEngineAppName env labels (idOf (some i)) = some l := by
  have hlt : i < labels.length := (List.getElem?_eq_some_iff.mp hi).choose
  have hid : (idOf (some i)).toNat = 400 + i := toNat_idOf (by omega)
  have hai : ndpiAiAppName (idOf (some i)) = none := by
    cases hs : ndpiAiAppName (idOf (some i)) with
    | none => rfl
    | some s =>
      have hservice := service_lt hs
      omega
  have hrange : idOf (some i) ≥ 400 ∧ idOf (some i) < 464 ∧
      (idOf (some i)).toNat - 400 < labels.length := by
    refine ⟨?_, ?_, by omega⟩
    · rw [ge_iff_le, UInt16.le_iff_toNat_le, hid]
      exact Nat.le_add_right 400 i
    · rw [UInt16.lt_iff_toNat_lt, hid]
      exact Nat.add_lt_add_left (hlt.trans_le hlen) 400
  rw [ndpiEngineAppName, hai]
  dsimp only
  rw [if_pos hrange, hid, Nat.add_sub_cancel_left, hi]

theorem idOf_ne_zero {i : ℕ} (hi : i < 64) : idOf (some i) ≠ 0 := by
  intro hzero
  have hid := toNat_idOf hi
  rw [hzero] at hid
  exact absurd hid (by rw [UInt16.toNat_zero]; omega)

theorem exists_place {o : Option ℕ} (h : idOf o ≠ 0) : ∃ i, o = some i := by
  cases o with
  | none => exact absurd rfl h
  | some i => exact ⟨i, rfl⟩

/-- A place is below the capacity. -/
theorem place_lt {labels : List Bytes} {l : Bytes} {i : ℕ} (hl : labels.Nodup)
    (hlen : labels.length ≤ 64) (h : (intern 64 labels l).2 = some i) : i < 64 := by
  obtain ⟨hlt, -⟩ := List.getElem?_eq_some_iff.mp (getElem?_intern hl h)
  exact hlt.trans_le (length_intern_le hl hlen l)

theorem idOf_inj {i j : ℕ} (hi : i < 64) (hj : j < 64) :
    idOf (some i) = idOf (some j) ↔ i = j := by
  refine ⟨fun heq => ?_, fun heq => congrArg (fun i => idOf (some i)) heq⟩
  have hval := congrArg UInt16.toNat heq
  rw [toNat_idOf hi, toNat_idOf hj] at hval
  omega

/-- **The pool.** After any calls of `engine_get_dyn_app` on hostnames for the pool, it has at most
64 different labels. A further call keeps them in their places and answers an id that is the name
of the hostname's label ever after. While there is room, two hostnames get the same id if and only
if their second-level labels are equal with a capital letter. When the pool is full, a hostname
whose label is known gets its id, any other gets none, and the pool stays as it is. -/
theorem label_pool_run (env : Env) (hosts : List (PoolHost env)) :
    let pool := fillPool env [] hosts
    (pool.Nodup ∧ pool.length ≤ 64) ∧
    (∀ (h : PoolHost env) (later : List (PoolHost env)),
      let q := engineGetDynApp env pool h.host
      pool <+: q.1 ∧ q.1 <+: fillPool env q.1 later ∧
        (q.2 ≠ 0 → ndpiEngineAppName env (fillPool env q.1 later) q.2 = some h.word)) ∧
    (∀ (h h' : PoolHost env) (between : List (PoolHost env)),
      let q := engineGetDynApp env pool h.host
      let pool' := fillPool env q.1 between
      let q' := engineGetDynApp env pool' h'.host
      pool'.length < 64 →
        q.2 ≠ 0 ∧ q'.2 ≠ 0 ∧ (q.2 = q'.2 ↔ capitalize h.sld = capitalize h'.sld)) ∧
    ∀ h : PoolHost env, pool.length = 64 →
      let q := engineGetDynApp env pool h.host
      q.1 = pool ∧ (h.word ∈ pool → q.2 ≠ 0 ∧ ndpiEngineAppName env pool q.2 = some h.word) ∧
        (h.word ∉ pool → q.2 = 0) := by
  intro pool
  have hpool : pool = fill 64 [] (hosts.map PoolHost.word) := fillPool_eq [] hosts
  have hnodup : pool.Nodup := hpool ▸ nodup_fill 64 List.nodup_nil _
  have hlen : pool.length ≤ 64 := hpool ▸ length_fill_le List.nodup_nil (Nat.zero_le 64) _
  refine ⟨⟨hnodup, hlen⟩, fun h later => ?_, fun h h' between => ?_, fun h hfull => ?_⟩
  · have hgrown := nodup_intern 64 hnodup h.word
    have hpre := prefix_fill 64 hgrown (later.map PoolHost.word)
    rw [h.engineGetDynApp_eq]
    dsimp only
    rw [fillPool_eq]
    refine ⟨prefix_intern 64 hnodup h.word, hpre, fun hid => ?_⟩
    obtain ⟨i, hi⟩ := exists_place hid
    have hword := getElem?_intern hnodup hi
    obtain ⟨hlt, heq⟩ := List.getElem?_eq_some_iff.mp hword
    have hlater : (fill 64 (intern 64 pool h.word).1 (later.map PoolHost.word))[i]? =
        some h.word := by
      rw [List.getElem?_eq_getElem (hlt.trans_le hpre.length_le), ← hpre.getElem hlt, heq]
    have hmax := length_fill_le hgrown (length_intern_le hnodup hlen h.word)
      (later.map PoolHost.word)
    rw [hi]
    exact ndpiEngineAppName_idOf env hmax hlater
  · have hgrown := nodup_intern 64 hnodup h.word
    have hpre := prefix_fill 64 hgrown (between.map PoolHost.word)
    have hnodup' := nodup_fill 64 hgrown (between.map PoolHost.word)
    rw [h.engineGetDynApp_eq]
    dsimp only
    rw [fillPool_eq, h'.engineGetDynApp_eq]
    intro hroom
    have hroom' : pool.length < 64 :=
      ((prefix_intern 64 hnodup h.word).trans hpre).length_le.trans_lt hroom
    obtain ⟨i, hi⟩ := Option.isSome_iff_exists.mp (isSome_intern hnodup hroom' h.word)
    obtain ⟨j, hj⟩ := Option.isSome_iff_exists.mp (isSome_intern hnodup' hroom h'.word)
    have hi64 := place_lt hnodup hlen hi
    have hj64 := place_lt hnodup' hroom.le hj
    dsimp only
    rw [hi, hj, idOf_inj hi64 hj64, place_eq_iff hnodup hi hpre hnodup' hj]
    exact ⟨idOf_ne_zero hi64, idOf_ne_zero hj64, Iff.rfl⟩
  · rw [h.engineGetDynApp_eq]
    by_cases hmem : h.word ∈ pool
    · obtain ⟨i, hi⟩ := List.getElem?_of_mem hmem
      have hlt : i < pool.length := (List.getElem?_eq_some_iff.mp hi).choose
      rw [intern_of_getElem? hnodup hi]
      exact ⟨rfl, fun _ => ⟨idOf_ne_zero (by omega), ndpiEngineAppName_idOf env hlen hi⟩,
        fun hnew => absurd hmem hnew⟩
    · rw [intern_of_full hmem hfull.ge]
      exact ⟨rfl, fun hknown => absurd hknown hmem, fun _ => rfl⟩

/-- The hostname `static.phantombuster.com`. -/
def phantombuster : PoolHost default where
  labels := [text "static", text "phantombuster", text "com"]
  dot := false
  two_le := by decide
  label := by decide +kernel
  length_lt := by decide +kernel
  passes := by
    unfold PassesFilters
    decide +kernel
  unknown h := h.1 rfl

example : fillPool default [] [phantombuster] = [text "Phantombuster"] := by decide +kernel

end NdpiObserve
