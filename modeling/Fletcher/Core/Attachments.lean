import Fletcher.Core.WriteBuffer
import Fletcher.Lib.SortedMap
import Mathlib.Data.List.Lex

/-!
# Attachments

`Attachments` publishes one enumeration: ascending in the unsigned-byte order of the key,
one entry per key, no zero byte in a key. The three rules are fields here, so an
enumeration in another order cannot be built.

There are two doors into it. `Set` inserts or replaces, and throws for a zero byte.
`AttachmentsWireBuilder` takes what a decoder reads in arrival order, notes whether the
keys ascended, and sorts at most once, in `Finish`; it reports a zero byte and never
throws.
-/

namespace Fletcher.Core

open Lib List

instance instLinearOrderUInt8 : LinearOrder UInt8 where
  le_refl := UInt8.le_refl
  le_trans _ _ _ := UInt8.le_trans
  le_antisymm _ _ := UInt8.le_antisymm
  le_total := UInt8.le_total
  lt_iff_le_not_ge a b := by
    rw [UInt8.not_le]
    exact ⟨fun h => ⟨UInt8.le_of_lt h, h⟩, And.right⟩
  toDecidableLE := inferInstance

structure Attachments where
  entries : List (Bytes × Bytes)
  ascending : SortedMap.Ascending entries
  noZero : ∀ e ∈ entries, (0 : UInt8) ∉ e.1
  deriving DecidableEq

namespace Attachments

theorem eq_of_entries {a a' : Attachments} (h : a.entries = a'.entries) : a = a' := by
  cases a
  cases a'
  cases h
  rfl

def empty : Attachments := ⟨[], List.Pairwise.nil, fun _ h => absurd h List.not_mem_nil⟩

/-- `Set`. -/
def set (a : Attachments) (key value : Bytes) : Except Error Attachments :=
  if h : (0 : UInt8) ∈ key then
    .error (.pubSubError ("Attachments: a key may not contain a zero byte (offset " ++
      toString (key.findIdx (· == 0)) ++
      "); a boundary marshalling it as a NUL-terminated string would truncate it " ++
      "there, and two distinct keys would silently become one"))
  else
    .ok ⟨SortedMap.set key value a.entries, SortedMap.ascending_set a.ascending, by
      intro e he
      rcases SortedMap.mem_set he with rfl | he
      · exact h
      · exact a.noZero e he⟩

/-- `Find`. -/
def find (a : Attachments) (key : Bytes) : Option Bytes := SortedMap.find key a.entries

/-- A history of `Set` calls on an empty set. -/
def setAll : List (Bytes × Bytes) → Attachments → Except Error Attachments
  | [], a => .ok a
  | e :: es, a => do
    let a ← a.set e.1 e.2
    setAll es a

/-- **The enumeration is a function of the map.** -/
theorem ext_find {a a' : Attachments} (h : ∀ key, a.find key = a'.find key) : a = a' :=
  eq_of_entries (SortedMap.ext a.ascending a'.ascending h)

theorem set_of_noZero (a : Attachments) {key : Bytes} (value : Bytes) (h : (0 : UInt8) ∉ key) :
    ∃ a', a.set key value = .ok a' ∧ a'.entries = SortedMap.set key value a.entries := by
  rw [set, dif_neg h]
  exact ⟨_, rfl, rfl⟩

end Attachments

/-! ## The bulk door -/

/-- `AttachmentsWireBuilder`: what has arrived, in order, and whether the keys ascended. -/
structure AttachmentsWireBuilder where
  entries : List (Bytes × Bytes)
  finished : Bool
  ascending : Bool
  sorted : finished = true ∨ ascending = true → SortedMap.Ascending entries
  noZero : ∀ e ∈ entries, (0 : UInt8) ∉ e.1

namespace AttachmentsWireBuilder

/-- The constructor clears the container. -/
def make : AttachmentsWireBuilder :=
  ⟨[], false, true, fun _ => List.Pairwise.nil, fun _ h => absurd h List.not_mem_nil⟩

/-- Whether `key` goes behind every key so far, as the one comparison with the last decides. -/
def follows (entries : List (Bytes × Bytes)) (key : Bytes) : Bool :=
  match entries.getLast? with
  | none => true
  | some e => e.1 < key

theorem ascending_concat {entries : List (Bytes × Bytes)} {e : Bytes × Bytes}
    (h : SortedMap.Ascending entries) (hfol : follows entries e.1 = true) :
    SortedMap.Ascending (entries ++ [e]) := by
  refine pairwise_append.mpr ⟨h, pairwise_singleton _ _, ?_⟩
  intro x hx y hy
  rw [mem_singleton.mp hy]
  rcases eq_nil_or_concat' entries with rfl | ⟨_, z, rfl⟩
  · cases hx
  · have hlast : z.1 < e.1 := by simpa [follows] using hfol
    rcases mem_append.mp hx with hx | hx
    · exact lt_trans ((pairwise_append.mp h).2.2 x hx z mem_cons_self) hlast
    · rwa [mem_singleton.mp hx]

variable (b : AttachmentsWireBuilder)

/-- `Append`: `none` is the source's `false`. -/
def append (key value : Bytes) : Option AttachmentsWireBuilder :=
  if b.finished then none
  else if hkey : (0 : UInt8) ∈ key then none
  else
    some
      { entries := b.entries ++ [(key, value)]
        finished := false
        ascending := b.ascending && follows b.entries key
        sorted := by
          intro h
          have h : b.ascending = true ∧ follows b.entries key = true := by simpa using h
          exact ascending_concat (b.sorted (.inr h.1)) h.2
        noZero := by
          intro e he
          rcases List.mem_append.mp he with he | he
          · exact b.noZero e he
          · rwa [List.mem_singleton.mp he] }

/-- `Finish`: nothing to do when the keys ascended, one stable sort otherwise, of which the
last of equal keys stays. -/
def finish : AttachmentsWireBuilder :=
  if h : b.ascending = true then { b with finished := true, sorted := fun _ => b.sorted (.inr h) }
  else
    { b with
      entries := SortedMap.build b.entries
      finished := true
      sorted := fun _ => SortedMap.ascending_build b.entries
      noZero := fun e he => b.noZero e (SortedMap.mem_build he) }

/-- The container once the builder is gone: an unfinished builder empties it. -/
def published : Attachments :=
  if h : b.finished = true then ⟨b.entries, b.sorted (.inl h), b.noZero⟩ else .empty

theorem append_eq_some {b : AttachmentsWireBuilder} {key : Bytes} (value : Bytes)
    (hb : b.finished = false) (hkey : (0 : UInt8) ∉ key) : ∃ b', b.append key value = some b' ∧
      b'.entries = b.entries ++ [(key, value)] ∧ b'.finished = false := by
  rw [append, if_neg (by rw [hb]; exact Bool.false_ne_true), dif_neg hkey]
  exact ⟨_, rfl, rfl, rfl⟩

theorem noZero_of_append {b b' : AttachmentsWireBuilder} {key value : Bytes}
    (h : b.append key value = some b') : (0 : UInt8) ∉ key ∧ b.finished = false := by
  unfold append at h
  split_ifs at h with hfin hkey
  exact ⟨hkey, by simpa using hfin⟩

/-- Sorted once or not at all, the outcome is the same. -/
theorem published_finish :
    b.finish.published.entries = SortedMap.build b.entries := by
  unfold finish published
  split
  · next h => simpa using (SortedMap.build_of_ascending (b.sorted (.inr h))).symm
  · simp

end AttachmentsWireBuilder

end Fletcher.Core
