import Mathlib

/-!
# Formatting into a buffer

Segments are printed one after the other into a buffer of `cap` elements, in the manner of C's
`snprintf`: each print is given the room that is left, keeps one element of it for a terminator,
drops what does not fit, and reports the full length of its segment. The position advances by that
length, so it may leave the buffer. What is left then is negative, and `toSize` says what the print
makes of it.

## Main definitions

* `FormatBuffer.printAt`: one print.
* `FormatBuffer.Sink`, `FormatBuffer.append`, `FormatBuffer.render`: the position and the memory
  after a list of segments, with the room that each print was given.

## Main results

* `FormatBuffer.render_faithful_iff`: no room is negative and the memory holds all segments, if
  and only if all of them and one terminator fit.
-/

namespace FormatBuffer

variable {β : Type*}

/-- The memory after a segment is printed at `start` with room for `size` elements: what fits of
the segment, and the terminator `z` behind it. -/
def printAt (z : β) (mem : ℕ → β) (start size : ℕ) (s : List β) : ℕ → β :=
  if size = 0 then mem
  else fun i =>
    if i < start then mem i
    else if h : i - start < (s.take (size - 1)).length then (s.take (size - 1))[i - start]
    else if i = start + (s.take (size - 1)).length then z
    else mem i

/-- The position, the memory from the start of the buffer on, and the room that was left for each
print. -/
structure Sink (β : Type*) where
  pos : ℕ
  mem : ℕ → β
  rooms : List ℤ

section Render

variable (toSize : ℤ → ℕ) (cap : ℕ) (z : β)

def append (b : Sink β) (s : List β) : Sink β where
  pos := b.pos + s.length
  mem := printAt z b.mem b.pos (toSize ((cap : ℤ) - b.pos)) s
  rooms := b.rooms ++ [(cap : ℤ) - b.pos]

/-- The segments printed one after the other, from the start of the buffer. -/
def render (mem : ℕ → β) (l : List (List β)) : Sink β :=
  l.foldl (append toSize cap z) { pos := 0, mem := mem, rooms := [] }

/-- The memory up to the position. -/
def Sink.contents (b : Sink β) : List β := (List.range b.pos).map b.mem

variable {toSize cap z} {mem : ℕ → β}

theorem render_concat (l : List (List β)) (s : List β) :
    render toSize cap z mem (l ++ [s]) = append toSize cap z (render toSize cap z mem l) s :=
  List.foldl_concat ..

/-- The position counts every element, printed or not. -/
theorem pos_render (l : List (List β)) :
    (render toSize cap z mem l).pos = l.flatten.length := by
  induction l using List.reverseRecOn with
  | nil => rfl
  | append_singleton l s ih =>
    rw [render_concat, List.flatten_concat, List.length_append, ← ih]
    rfl

theorem printAt_of_fits {size : ℕ} {s : List β} (hs : s.length < size) (start i : ℕ) :
    printAt z mem start size s i =
      if i < start then mem i
      else if h : i - start < s.length then s[i - start]
      else if i = start + s.length then z else mem i := by
  have htake : s.take (size - 1) = s := List.take_of_length_le (by omega)
  rw [printAt, if_neg (by omega)]
  simp only [htake]

variable (htoSize : ∀ n : ℕ, n ≤ cap → toSize n = n)

include htoSize

theorem toSize_room {p : ℕ} (hp : p ≤ cap) : toSize ((cap : ℤ) - p) = cap - p := by
  rw [← Nat.cast_sub hp]
  exact htoSize (cap - p) (Nat.sub_le _ _)

/-- Segments that fit are in memory, and no room was negative. -/
theorem render_of_fits {l : List (List β)} (h : l.flatten.length < cap) :
    (∀ r ∈ (render toSize cap z mem l).rooms, 0 ≤ r) ∧
      ∀ i (hi : i < l.flatten.length), (render toSize cap z mem l).mem i = l.flatten[i] := by
  induction l using List.reverseRecOn with
  | nil => exact ⟨by simp [render], fun i hi => absurd hi (Nat.not_lt_zero i)⟩
  | append_singleton l s ih =>
    have hlen : (l ++ [s]).flatten.length = l.flatten.length + s.length := by
      rw [List.flatten_concat, List.length_append]
    obtain ⟨hrooms, hmem⟩ := ih (by omega)
    have hpos : (render toSize cap z mem l).pos = l.flatten.length := pos_render l
    rw [render_concat]
    refine ⟨fun r hr => ?_, fun i hi => ?_⟩
    · rcases List.mem_append.mp hr with hr | hr
      · exact hrooms r hr
      · rw [List.mem_singleton.mp hr, hpos]
        omega
    · rw [append, hpos, toSize_room htoSize (by omega)]
      dsimp only
      rw [printAt_of_fits (by omega)]
      simp only [List.flatten_concat, List.getElem_append]
      split
      case isTrue hlt => exact hmem i hlt
      case isFalse hge => rw [dif_pos (by omega)]

/-- When the segments do not fit, the last element of the buffer is a terminator. -/
theorem mem_render_of_overflow (hcap : 0 < cap) {l : List (List β)}
    (h : cap ≤ l.flatten.length) : (render toSize cap z mem l).mem (cap - 1) = z := by
  induction l using List.reverseRecOn with
  | nil => exact absurd h (not_le.mpr hcap)
  | append_singleton l s ih =>
    have hpos : (render toSize cap z mem l).pos = l.flatten.length := pos_render l
    have hlen : (l ++ [s]).flatten.length = l.flatten.length + s.length := by
      rw [List.flatten_concat, List.length_append]
    rw [render_concat, append, hpos]
    by_cases hfull : cap ≤ l.flatten.length
    · -- the following segments are printed behind the buffer, if at all
      dsimp only
      rw [printAt]
      split
      · exact ih hfull
      · dsimp only
        rw [if_pos (by omega)]
        exact ih hfull
    · have htake : (s.take (cap - l.flatten.length - 1)).length = cap - l.flatten.length - 1 := by
        rw [List.length_take]
        omega
      rw [toSize_room htoSize (by omega), printAt, if_neg (by omega)]
      simp only [htake]
      rw [if_neg (by omega), dif_neg (by omega), if_pos (by omega)]

theorem terminator_mem_contents (hcap : 0 < cap) {l : List (List β)}
    (h : cap ≤ l.flatten.length) : z ∈ (render toSize cap z mem l).contents := by
  have hpos : (render toSize cap z mem l).pos = l.flatten.length := pos_render l
  refine List.mem_map.mpr ⟨cap - 1, List.mem_range.mpr (by omega), ?_⟩
  exact mem_render_of_overflow htoSize hcap h

/-- Segments that fit are the contents. -/
theorem contents_of_fits {l : List (List β)} (h : l.flatten.length < cap) :
    (render toSize cap z mem l).contents = l.flatten := by
  have hpos : (render toSize cap z mem l).pos = l.flatten.length := pos_render l
  refine List.ext_getElem (by simp [Sink.contents, hpos]) fun i h₁ h₂ => ?_
  simp only [Sink.contents, List.getElem_map, List.getElem_range]
  exact (render_of_fits htoSize h).2 i h₂

/-- **Faithful buffers.** For segments without terminators, no print is given a negative room and
the memory holds all segments, if and only if they fit with one terminator. -/
theorem render_faithful_iff (hcap : 0 < cap) {l : List (List β)} (hz : z ∉ l.flatten) :
    ((∀ r ∈ (render toSize cap z mem l).rooms, 0 ≤ r) ∧
      (render toSize cap z mem l).contents = l.flatten) ↔ l.flatten.length < cap := by
  constructor
  · rintro ⟨-, hcontents⟩
    by_contra hover
    have hmem : z ∈ (render toSize cap z mem l).contents :=
      terminator_mem_contents htoSize hcap (not_lt.mp hover)
    rw [hcontents] at hmem
    exact hz hmem
  · exact fun hfits => ⟨(render_of_fits htoSize hfits).1, contents_of_fits htoSize hfits⟩

end Render

end FormatBuffer
