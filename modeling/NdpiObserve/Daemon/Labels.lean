import NdpiObserve.Daemon.Services

/-!
# Categories, names and dynamic labels

The functions of `daemon/ndpi_engine.c` that name things: the category of an application, its
name, and the pool of labels for hostnames that nDPI does not know. The pool is the list of the
labels in use; label `i` has the id `400 + i`.

## Main definitions

* `ndpiEngineCategoryFor`, `ndpiEngineAppName`: the category and the name of an application.
* `cleanLabel`, `engineGetDynApp`: the label of a hostname, and its id in the pool.

## Main results

* `ndpiEngineCategoryFor_lt`: every flow has one of the 64 categories.
-/

namespace NdpiObserve

/-- `NDPI_PROTOCOL_UNKNOWN`. -/
def ndpiProtocolUnknown : UInt16 := 0

/-! ### Categories and names -/

/-- The category of a known product subdomain, or `0xFF`. -/
def categoryOverrideForSni (env : Env) (sni : Bytes) : UInt8 :=
  let overrides : List (String × UInt8) :=
    [("music.youtube.com", env.categoryMusic), ("podcasts.google.com", env.categoryMusic),
      ("studio.youtube.com", env.categoryWeb), ("meet.google.com", env.categoryVoip),
      ("chat.google.com", env.categoryChat), ("mail.google.com", env.categoryMail),
      ("drive.google.com", env.categoryDataTransfer),
      ("docs.google.com", env.categoryCollaborative)]
  if sni = [] then 0xFF
  else
    ((overrides.find? fun o =>
      (text o.1).isSuffixOf sni &&
        ((sni.take (sni.length - (text o.1).length)).getLast?.all (· = 46))).map Prod.snd).getD 0xFF

def ndpiEngineCategoryId (env : Env) (app : UInt16) : UInt8 :=
  if app ≥ 400 then env.categoryWeb
  else
    let cat := env.getProtoCategory app
    if cat < 64 then UInt8.ofNat cat else env.categoryUnspecified

/-- The category of an application, after the override for the hostname. -/
def ndpiEngineCategoryFor (env : Env) (app : UInt16) (sni : Bytes) : UInt8 :=
  let ov := categoryOverrideForSni env sni
  if ov ≠ 0xFF then ov else ndpiEngineCategoryId env app

/-- nDPI's category constants are among the first 64. -/
def Env.CategoriesBounded (env : Env) : Prop :=
  ∀ c ∈ [env.categoryUnspecified, env.categoryWeb, env.categoryMusic, env.categoryVoip,
    env.categoryChat, env.categoryMail, env.categoryDataTransfer, env.categoryCollaborative],
    c.toNat < 64

theorem categoryOverrideForSni_mem (env : Env) (sni : Bytes) :
    categoryOverrideForSni env sni ∈ [0xFF, env.categoryMusic, env.categoryWeb, env.categoryVoip,
      env.categoryChat, env.categoryMail, env.categoryDataTransfer,
      env.categoryCollaborative] := by
  rw [categoryOverrideForSni]
  split
  · simp
  · cases hfind : List.find? _ _ with
    | none => simp
    | some o =>
      have hmem := List.mem_of_find?_eq_some hfind
      simp only [List.mem_cons, List.not_mem_nil, or_false] at hmem
      rcases hmem with rfl | rfl | rfl | rfl | rfl | rfl | rfl | rfl <;> simp

/-- Every flow has one of the 64 categories. -/
theorem ndpiEngineCategoryFor_lt {env : Env} (h : env.CategoriesBounded) (app : UInt16)
    (sni : Bytes) : (ndpiEngineCategoryFor env app sni).toNat < 64 := by
  have hid : (ndpiEngineCategoryId env app).toNat < 64 := by
    rw [ndpiEngineCategoryId]
    dsimp only
    split_ifs with happ hcat
    · exact h _ (by simp)
    · simp only [UInt8.toNat_ofNat']
      omega
    · exact h _ (by simp)
  rw [ndpiEngineCategoryFor]
  split
  case isFalse => exact hid
  case isTrue hov =>
    refine h _ ?_
    have hmem := categoryOverrideForSni_mem env sni
    rw [List.mem_cons] at hmem
    have hrest := hmem.resolve_left hov
    simp only [List.mem_cons, List.not_mem_nil, or_false] at hrest ⊢
    tauto

/-- The name of an application: a service, a dynamic label of the pool, or nDPI's name. -/
def ndpiEngineAppName (env : Env) (dynLabels : List Bytes) (app : UInt16) : Option Bytes :=
  match ndpiAiAppName app with
  | some ai => some ai
  | none =>
    if app ≥ 400 ∧ app < 464 ∧ app.toNat - 400 < dynLabels.length then
      dynLabels[app.toNat - 400]?
    else env.getProtoName app

/-! ### Dynamic labels -/

/-- nDPI's name of a protocol, unless it is one of the generic ones. -/
def specificName (env : Env) (proto : UInt16) : Option Bytes :=
  match env.getProtoName proto with
  | none => none
  | some name =>
    if name ≠ text "Unknown" ∧ name ≠ text "TLS" ∧ name ≠ text "HTTP" ∧ name ≠ text "QUIC" then
      some name
    else none

/-- The backward scan of `clean_label` from index `prev` to a dot or to the start. -/
def prevDot (buf : Bytes) : ℕ → ℕ
  | 0 => 0
  | prev + 1 => if buf[prev + 1]? = some 46 then prev + 1 else prevDot buf prev

/-- Where the second-level label of `buf` starts. -/
def sldStart (buf : Bytes) : ℕ :=
  match buf.reverse.findIdx? (· = 46) with
  | none => 0
  | some j =>
    let last := buf.length - 1 - j
    if last = 0 then 0
    else
      let prev := prevDot buf (last - 1)
      if buf[prev]? = some 46 then prev + 1 else 0

/-- `word[0] -= 32` for a lower-case letter. -/
def capitalize : Bytes → Bytes
  | [] => []
  | b :: rest => (if 97 ≤ b ∧ b ≤ 122 then b - 32 else b) :: rest

/-- The second step of `clean_label`: one word of the hostname. -/
def sldWord (host : Bytes) : Bytes :=
  let buf := host.take 83
  let buf := if buf.getLast? = some 46 then buf.dropLast else buf
  if buf = [] then host
  else capitalize (((buf.drop (sldStart buf)).takeWhile (· ≠ 46)).take 63)

def cleanLabel (env : Env) (host : Bytes) : Bytes :=
  let proto := env.matchStringSubprotocol host
  if proto ≠ ndpiProtocolUnknown then (specificName env proto).getD (sldWord host)
  else sldWord host

/-- The part of a hostname after its last dot. -/
def tldOf (host : Bytes) : Bytes := (host.reverse.takeWhile (· ≠ 46)).reverse

/-- Looks up or creates the dynamic label of a hostname in the pool. -/
def engineGetDynApp (env : Env) (labels : List Bytes) (host : Bytes) : List Bytes × UInt16 :=
  if host = [] then (labels, 0)
  else if ¬ 46 ∈ host then (labels, 0)
  else if tldOf host = text "local" ∨ tldOf host = text "localdomain" then (labels, 0)
  else if strstr (text ".arpa") host ∨ strstr (text ".in-addr.") host then (labels, 0)
  else
    let pid := env.matchStringSubprotocol host
    if pid ≠ ndpiProtocolUnknown ∧ (specificName env pid).isSome then (labels, pid)
    else
      let label := cleanLabel env host
      match labels.findIdx? (· = label) with
      | some i => (labels, UInt16.ofNat (400 + i))
      | none =>
        if labels.length ≥ 64 then (labels, 0)
        else (labels ++ [label.take 63], UInt16.ofNat (400 + labels.length))

end NdpiObserve
