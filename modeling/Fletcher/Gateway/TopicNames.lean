import Fletcher.Gateway.Session

/-!
# What a topic is called

A list of segments that passes `RequireSegments` is joined into a name, and the name is
all that travels. Its segments are not empty and hold no separator, so cutting the name
at `/` gives the list back, and two accepted lists never share a name. The schema of a
topic is announced under the name followed by `/__schema`; cut up, that ends in a
segment no accepted list has.
-/

namespace Fletcher.Gateway

open Lib Utf8 PubSub List

variable {segs : List Bytes} {key : Bytes}

/-! ## Accepted lists -/

/-- What the six rules leave. -/
structure Accepted (segs : List Bytes) : Prop where
  nonempty : segs ≠ []
  short : joinedLength segs ≤ maxJoinedTopicBytes
  named : ∀ seg ∈ segs, seg ≠ []
  unreserved : ∀ seg ∈ segs, seg.take 2 ≠ [95, 95]
  whole : ∀ seg ∈ segs, separator ∉ seg
  noZero : ∀ seg ∈ segs, (0 : UInt8) ∉ seg

theorem requireBytes_eq_ok {seg : Bytes} : ∀ {cs : Bytes},
    requireBytes seg cs = .ok () ↔ separator ∉ cs ∧ (0 : UInt8) ∉ cs
  | [] => by simp [requireBytes]
  | c :: cs => by
    have ih := @requireBytes_eq_ok seg cs
    rw [requireBytes]
    by_cases hsep : c = separator
    · simp [hsep]
    · rw [if_neg hsep]
      by_cases hzero : c = 0
      · simp [hzero]
      · rw [if_neg hzero, ih]
        simp [Ne.symm hsep, Ne.symm hzero]

theorem requireSegment_eq_ok {seg : Bytes} : requireSegment seg = .ok () ↔
      seg ≠ [] ∧ seg.take 2 ≠ [95, 95] ∧ separator ∉ seg ∧ (0 : UInt8) ∉ seg := by
  unfold requireSegment
  by_cases hnil : seg = []
  · simp [hnil]
  · rw [if_neg hnil]
    by_cases hrsv : seg.take 2 = [95, 95]
    · simp [hrsv]
    · rw [if_neg hrsv, requireBytes_eq_ok]
      simp [hnil, hrsv]

theorem requireEach_eq_ok : ∀ {segs : List Bytes},
    requireEach segs = .ok () ↔ ∀ seg ∈ segs, requireSegment seg = .ok ()
  | [] => by simp [requireEach]
  | seg :: segs => by
    have ih := @requireEach_eq_ok segs
    rw [requireEach, forall_mem_cons]
    cases hseg : requireSegment seg with
    | error _ => simp
    | ok u => simpa [hseg] using ih

/-- `RequireSegments` accepts exactly the lists the rules describe. -/
theorem requireSegments_eq_ok : requireSegments segs = .ok () ↔ Accepted segs := by
  unfold requireSegments
  constructor
  · intro h
    by_cases hnil : segs = []
    · simp [hnil] at h
    · rw [if_neg hnil] at h
      by_cases hlong : maxJoinedTopicBytes < joinedLength segs
      · simp [hlong] at h
      · rw [if_neg hlong, requireEach_eq_ok] at h
        have hseg := fun seg hmem => requireSegment_eq_ok.mp (h seg hmem)
        exact ⟨hnil, by omega, fun seg hmem => (hseg seg hmem).1,
          fun seg hmem => (hseg seg hmem).2.1, fun seg hmem => (hseg seg hmem).2.2.1,
          fun seg hmem => (hseg seg hmem).2.2.2⟩
  · intro h
    have hsht : ¬ maxJoinedTopicBytes < joinedLength segs := by
      have hle := h.short
      omega
    rw [if_neg h.nonempty, if_neg hsht, requireEach_eq_ok]
    intro seg hmem
    exact requireSegment_eq_ok.mpr
      ⟨h.named seg hmem, h.unreserved seg hmem, h.whole seg hmem, h.noZero seg hmem⟩

/-- A name is the join of an accepted list. -/
theorem joinSegments_accepted :
    joinSegments segs = .ok key ↔ Accepted segs ∧ intercalate [separator] segs = key := by
  rw [joinSegments_eq_ok, requireSegments_eq_ok]

/-! ## Joining -/

/-- The loop both joins run: a separator and the next segment. -/
def appendSegments (out : Bytes) : List Bytes → Bytes
  | [] => out
  | seg :: segs => appendSegments (out ++ separator :: seg) segs

/-- `JoinSegmentsInto`: what `out` holds afterwards, and whether it threw. The check
comes before `out` is cleared. -/
def joinSegmentsInto (out : Bytes) (segs : List Bytes) : Bytes × Except Text Unit :=
  match requireSegments segs with
  | .error text => (out, .error text)
  | .ok () => (appendSegments (segs.headD []) segs.tail, .ok ())

theorem appendSegments_eq : ∀ (segs : List Bytes) (out : Bytes),
    appendSegments out segs = intercalate [separator] (out :: segs)
  | [], out => by simp [appendSegments]
  | seg :: segs, out => by
    have ih := appendSegments_eq segs (out ++ separator :: seg)
    rw [appendSegments, ih, intercalate_cons_cons]
    -- the first piece of a join may be lengthened before or after joining
    cases segs with
    | nil => simp
    | cons _ segs => simp [intercalate_cons_cons]

/-- The two joins agree on every list: the same name, or the same text and `out` as it
was. -/
theorem joinSegmentsInto_eq (out : Bytes) (segs : List Bytes) : joinSegmentsInto out segs =
      match joinSegments segs with
      | .ok key => (key, .ok ())
      | .error text => (out, .error text) := by
  unfold joinSegmentsInto joinSegments
  cases hreq : requireSegments segs with
  | error text => rfl
  | ok u =>
    have hnil : segs ≠ [] := (requireSegments_eq_ok.mp hreq).nonempty
    cases segs with
    | nil => exact absurd rfl hnil
    | cons seg segs =>
      show (appendSegments seg segs, _) = (intercalate [separator] (seg :: segs), _)
      rw [appendSegments_eq]

theorem length_intercalate : ∀ {segs : List Bytes}, segs ≠ [] →
    (intercalate [separator] segs).length = joinedLength segs
  | [seg], _ => by simp [joinedLength]
  | seg :: seg' :: segs, _ => by
    have ih := length_intercalate (cons_ne_nil seg' segs)
    rw [intercalate_cons_cons, length_append, length_append, ih]
    simp [joinedLength]
    omega

/-! ## Splitting -/

/-- Cutting a name at the separators gives its list back. -/
theorem splitOn_of_join (h : joinSegments segs = .ok key) : key.splitOn separator = segs := by
  obtain ⟨hacc, rfl⟩ := joinSegments_accepted.mp h
  exact splitOn_intercalate separator hacc.whole hacc.nonempty

theorem joinSegments_injective {segs' : List Bytes}
    (h : joinSegments segs = .ok key) (h' : joinSegments segs' = .ok key) : segs = segs' := by
  rw [← splitOn_of_join h, ← splitOn_of_join h']

/-- The name a topic's schema is announced under. -/
def companionName (name : Bytes) : Bytes := name ++ ascii "/__schema"

/-- A companion cut at the separators ends in the reserved segment. -/
theorem splitOn_companionName (name : Bytes) :
    (companionName name).splitOn separator = name.splitOn separator ++ [ascii "__schema"] := by
  have hcut : companionName name = name ++ separator :: ascii "__schema" := by
    congr 1
  rw [hcut, splitOn_append_cons_self]
  congr 1

theorem ne_companionName (h : joinSegments segs = .ok key)
    (name : Bytes) : key ≠ companionName name := by
  intro heq
  have hsegs : segs = name.splitOn separator ++ [ascii "__schema"] := by
    rw [← splitOn_of_join h, heq, splitOn_companionName]
  have hacc := (joinSegments_accepted.mp h).1
  refine hacc.unreserved (ascii "__schema") ?_ (by decide)
  rw [hsegs]
  exact mem_append_right _ mem_cons_self

theorem length_of_join (h : joinSegments segs = .ok key) : key.length ≤ maxJoinedTopicBytes := by
  obtain ⟨hacc, rfl⟩ := joinSegments_accepted.mp h
  rw [length_intercalate hacc.nonempty]
  exact hacc.short

/-- A name the gateway cut up and joined again is the name it was given. -/
theorem eq_of_join_splitTopic {topic : Bytes} (h : joinSegments (splitTopic topic) = .ok key) :
    key = topic := by
  obtain ⟨hacc, hjoin⟩ := joinSegments_accepted.mp h
  unfold splitTopic at hacc hjoin
  by_cases hnil : topic = []
  · rw [if_pos hnil] at hacc
    exact absurd rfl hacc.nonempty
  · rw [if_neg hnil, intercalate_splitOn] at hjoin
    exact hjoin.symm

/-- **Topic names.** Over the lists `RequireSegments` accepts: cutting recovers the list
and joining is injective; no name is the companion of one; a name and its companion fit
255 bytes; both joins agree; and what the gateway cuts up and joins again it gives back. -/
theorem topicNames : (∀ segs key, joinSegments segs = .ok key → key.splitOn separator = segs) ∧
    (∀ segs segs' key, joinSegments segs = .ok key → joinSegments segs' = .ok key → segs = segs') ∧
    (∀ segs segs' key key', joinSegments segs = .ok key → joinSegments segs' = .ok key' →
      key ≠ companionName key') ∧
    (∀ segs key, joinSegments segs = .ok key →
      key.length ≤ 255 ∧ (companionName key).length ≤ 255) ∧
    (∀ out segs, joinSegmentsInto out segs =
      match joinSegments segs with
      | .ok key => (key, .ok ())
      | .error text => (out, .error text)) ∧
    (∀ topic key, joinSegments (splitTopic topic) = .ok key → key = topic) := by
  refine ⟨fun _ _ => splitOn_of_join, fun _ _ _ => joinSegments_injective, ?_, ?_,
    joinSegmentsInto_eq, fun _ _ => eq_of_join_splitTopic⟩
  · intro segs segs' key key' h _
    exact ne_companionName h key'
  · intro segs key h
    have hlen := length_of_join h
    have hsuffix : (ascii "/__schema").length = 9 := by decide
    unfold maxJoinedTopicBytes at hlen
    refine ⟨by omega, ?_⟩
    rw [companionName, length_append, hsuffix]
    omega

example : joinSegments [ascii "a", ascii "b"] = .ok (ascii "a/b") := by decide

end Fletcher.Gateway
