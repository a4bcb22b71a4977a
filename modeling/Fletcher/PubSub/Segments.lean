import Fletcher.Lib.Utf8

/-!
# Topic names

A topic is a list of segments; `RequireSegments` is the gate every list passes before
it is joined with `/` into the name the providers use. A refusal is an exception, here
its text: the bytes of `what()`. Two of the rules put the client's own segment into it.
-/

namespace Fletcher.PubSub

open Lib Utf8

variable {segs : List Bytes} {text : Text}

/-- The bytes of an exception's `what()`. -/
abbrev Text := Bytes

/-- `/`. -/
def separator : UInt8 := 47

/-- 255, the longest name a topic is announced under, less the 9 bytes of `/__schema`. -/
def maxJoinedTopicBytes : Nat := 246

/-- The byte loop over one segment. -/
def requireBytes (seg : Bytes) : Bytes → Except Text Unit
  | [] => .ok ()
  | c :: cs =>
    if c = separator then
      .error (ascii ("topic: a segment may not contain the separator '/', which would name a " ++
        "different segment list: ") ++ seg)
    else if c = 0 then
      .error (ascii ("topic: a segment may not contain a zero byte, which would truncate the " ++
        "name on the wire"))
    else requireBytes seg cs

def reservedText : Text :=
  ascii "topic: segments beginning \"__\" are reserved for provider-derived companion channels: "

def requireSegment (seg : Bytes) : Except Text Unit :=
  if seg = [] then .error (ascii "topic: an empty segment names nothing")
  else if seg.take 2 = [95, 95] then
    .error (reservedText ++ seg)
  else requireBytes seg seg

def requireEach : List Bytes → Except Text Unit
  | [] => .ok ()
  | seg :: segs => do
    requireSegment seg
    requireEach segs

/-- The length of the joined name, separators included. -/
def joinedLength (segs : List Bytes) : Nat := segs.length - 1 + (segs.map List.length).sum

/-- `RequireSegments`. -/
def requireSegments (segs : List Bytes) : Except Text Unit :=
  if segs = [] then .error (ascii "topic: an empty segment list names no topic")
  else if maxJoinedTopicBytes < joinedLength segs then
    .error (ascii "topic: the joined name is " ++ decimal (joinedLength segs) ++
      ascii " bytes, above the " ++ decimal maxJoinedTopicBytes ++
      ascii ("-byte limit that keeps it and its companion channel from being silently truncated " ++
        "on the wire"))
  else requireEach segs

/-- `JoinSegments`. -/
def joinSegments (segs : List Bytes) : Except Text Bytes := do
  requireSegments segs
  .ok (List.intercalate [separator] segs)

/-! ## The texts of refusals -/

/-- The byte loop stops at a separator, and its text then quotes the segment. -/
def quotesBytes : Bytes → Bool
  | [] => false
  | c :: cs => if c = separator then true else if c = 0 then false else quotesBytes cs

/-- The rule the segment breaks is one whose text quotes it. -/
def quotes (seg : Bytes) : Bool :=
  if seg = [] then false else if seg.take 2 = [95, 95] then true else quotesBytes seg

/-- The segment the loop over the list stops at, when it is quoted. -/
def quotedOf : List Bytes → Option Bytes
  | [] => none
  | seg :: segs =>
    match requireSegment seg with
    | .ok _ => quotedOf segs
    | .error _ => if quotes seg then some seg else none

/-- The segment whose bytes are in the text of a refusal. -/
def quoted (segs : List Bytes) : Option Bytes :=
  if segs = [] then none
  else if maxJoinedTopicBytes < joinedLength segs then none
  else quotedOf segs

theorem requireBytes_text {seg : Bytes} : ∀ {cs : Bytes} {text : Text},
    requireBytes seg cs = .error text →
    (valid text = true ↔ (quotesBytes cs = true → valid seg = true))
  | [], _, h => by cases h
  | c :: cs, text, h => by
    rw [requireBytes] at h
    rw [quotesBytes]
    by_cases hsep : c = separator
    · rw [if_pos hsep] at h ⊢
      cases h
      rw [valid_append_iff (by decide)]
      simp
    · rw [if_neg hsep] at h ⊢
      by_cases hzero : c = 0
      · rw [if_pos hzero] at h ⊢
        cases h
        simp only [Bool.false_eq_true, false_implies, iff_true]
        decide
      · rw [if_neg hzero] at h ⊢
        exact requireBytes_text h

theorem requireSegment_text {seg : Bytes} (h : requireSegment seg = .error text) :
    valid text = true ↔ (quotes seg = true → valid seg = true) := by
  unfold requireSegment at h
  unfold quotes
  by_cases hnil : seg = []
  · rw [if_pos hnil] at h ⊢
    cases h
    simp only [Bool.false_eq_true, false_implies, iff_true]
    decide
  · rw [if_neg hnil] at h ⊢
    by_cases hrsv : seg.take 2 = [95, 95]
    · rw [if_pos hrsv] at h ⊢
      cases h
      rw [reservedText, valid_append_iff (by decide)]
      simp
    · rw [if_neg hrsv] at h ⊢
      exact requireBytes_text h

theorem requireEach_text : ∀ {segs : List Bytes} {text : Text}, requireEach segs = .error text →
    (valid text = true ↔ ∀ seg, quotedOf segs = some seg → valid seg = true)
  | [], _, h => by cases h
  | seg :: segs, text, h => by
    rw [requireEach] at h
    rw [quotedOf]
    cases hseg : requireSegment seg with
    | error _ =>
      rw [hseg] at h
      cases h
      rw [requireSegment_text hseg]
      by_cases hq : quotes seg = true <;> simp [hq]
    | ok u =>
      rw [hseg] at h
      exact requireEach_text h

theorem joinSegments_eq_error :
    joinSegments segs = .error text ↔ requireSegments segs = .error text := by
  unfold joinSegments
  cases requireSegments segs with
  | error e => exact ⟨fun h => by cases h; rfl, fun h => by cases h; rfl⟩
  | ok u => exact iff_of_false (by intro h; cases h) (by intro h; cases h)

theorem joinSegments_eq_ok {key : Bytes} : joinSegments segs = .ok key ↔
      requireSegments segs = .ok () ∧ List.intercalate [separator] segs = key := by
  unfold joinSegments
  cases requireSegments segs with
  | error e => exact iff_of_false (by intro h; cases h) (by intro h; cases h.1)
  | ok u => exact ⟨fun h => ⟨rfl, Except.ok.inj h⟩, fun h => congrArg Except.ok h.2⟩

/-- The text of a refusal is UTF-8 exactly when the segment it quotes is. -/
theorem joinSegments_text (h : joinSegments segs = .error text) :
    valid text = true ↔ ∀ seg, quoted segs = some seg → valid seg = true := by
  have hreq := joinSegments_eq_error.mp h
  unfold requireSegments at hreq
  unfold quoted
  by_cases hnil : segs = []
  · rw [if_pos hnil] at hreq ⊢
    cases hreq
    simp only [reduceCtorEq, false_implies, implies_true, iff_true]
    decide
  · rw [if_neg hnil] at hreq ⊢
    by_cases hlong : maxJoinedTopicBytes < joinedLength segs
    · rw [if_pos hlong] at hreq ⊢
      cases hreq
      simp only [reduceCtorEq, false_implies, implies_true, iff_true]
      refine valid_append (valid_append (valid_append (valid_append ?_ (valid_numeral _ _)) ?_)
        (valid_numeral _ _)) ?_
      all_goals decide
    · rw [if_neg hlong] at hreq ⊢
      exact requireEach_text hreq

theorem quotedOf_of_ok : ∀ {segs : List Bytes}, requireEach segs = .ok () → quotedOf segs = none
  | [], _ => rfl
  | seg :: segs, h => by
    rw [requireEach] at h
    rw [quotedOf]
    cases hseg : requireSegment seg with
    | error _ =>
      rw [hseg] at h
      cases h
    | ok u =>
      rw [hseg] at h
      exact quotedOf_of_ok h

/-- An accepted list has nothing to quote. -/
theorem quoted_of_ok {key : Bytes} (h : joinSegments segs = .ok key) :
    quoted segs = none := by
  have hreq := (joinSegments_eq_ok.mp h).1
  unfold requireSegments at hreq
  unfold quoted
  by_cases hnil : segs = []
  · rw [if_pos hnil]
  · rw [if_neg hnil] at hreq ⊢
    by_cases hlong : maxJoinedTopicBytes < joinedLength segs
    · rw [if_pos hlong]
    · rw [if_neg hlong] at hreq ⊢
      exact quotedOf_of_ok hreq

end Fletcher.PubSub
