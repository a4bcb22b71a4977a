import Fletcher.Gateway.TopicNames

/-!
# Topics of generated code

The C++ publisher and subscriber of a method carry their topic as a list of segments,
with the whole package as the first one. The TypeScript constant is one string, in
which the dots of the package have become separators, and the gateway cuts it up. A
package of one component or none comes out the same either way; a dotted one does not.
-/

namespace Fletcher.Protoc

open Lib Utf8 PubSub Gateway List

/-- `.`. -/
def dot : UInt8 := 46

/-- A letter or an underscore. -/
def isLetter (c : UInt8) : Bool := (65 ≤ c && c ≤ 90) || (97 ≤ c && c ≤ 122) || c == 95

/-- A protobuf identifier. -/
def isIdent : Bytes → Bool
  | [] => false
  | c :: cs => isLetter c && cs.all fun d => isLetter d || isDigit d

/-- `FileDescriptor::package()`: the components, dotted; empty when there is none. -/
def package (components : List Bytes) : Bytes := List.intercalate [dot] components

/-- `EmitTopicSegments`. -/
def emitTopicSegments (package service method : Bytes) : List Bytes :=
  (if package = [] then [] else [package]) ++ [service, method]

/-- `DotToSlash`. -/
def dotToSlash (s : Bytes) : Bytes := s.map fun c => if c = dot then separator else c

/-- The topic constant `GenerateFile` emits for TypeScript. -/
def topicPath (package service method : Bytes) : Bytes :=
  (if package = [] then [] else dotToSlash package ++ [separator]) ++
    (service ++ [separator] ++ method)

/-! ## Identifiers -/

theorem isIdent_ne_nil {s : Bytes} (h : isIdent s = true) : s ≠ [] := by
  intro hnil
  rw [hnil] at h
  cases h

/-- An identifier holds neither a dot nor a separator. -/
theorem isIdent_not_mem {s : Bytes} (h : isIdent s = true) : dot ∉ s ∧ separator ∉ s := by
  have hword : ∀ c : UInt8, (isLetter c || isDigit c) = true → c ≠ dot ∧ c ≠ separator := by
    intro c hc
    constructor
    · intro heq
      rw [heq] at hc
      revert hc
      decide
    · intro heq
      rw [heq] at hc
      revert hc
      decide
  have hall : ∀ c ∈ s, (isLetter c || isDigit c) = true := by
    cases s with
    | nil => cases h
    | cons c _ =>
      rw [isIdent, Bool.and_eq_true, all_eq_true] at h
      intro d hd
      rcases mem_cons.mp hd with rfl | hd
      · rw [h.1, Bool.true_or]
      · exact h.2 d hd
  exact ⟨fun hmem => (hword dot (hall dot hmem)).1 rfl,
    fun hmem => (hword separator (hall separator hmem)).2 rfl⟩

theorem dotToSlash_ident {s : Bytes} (h : dot ∉ s) : dotToSlash s = s := by
  unfold dotToSlash
  conv_rhs => rw [← List.map_id s]
  refine map_congr_left fun c hc => ?_
  have hne : c ≠ dot := fun heq => h (heq ▸ hc)
  rw [if_neg hne, id]

theorem dotToSlash_dotted (s rest : Bytes) :
    dotToSlash (s ++ [dot] ++ rest) = dotToSlash s ++ [separator] ++ dotToSlash rest := by
  simp [dotToSlash]

/-- The dots of a package become separators between its components. -/
theorem dotToSlash_package : ∀ {components : List Bytes}, (∀ c ∈ components, dot ∉ c) →
    dotToSlash (package components) = intercalate [separator] components
  | [], _ => rfl
  | [c], h => by
    have hc := dotToSlash_ident (h c mem_cons_self)
    simpa [package] using hc
  | c :: c' :: components, h => by
    have hc := dotToSlash_ident (h c mem_cons_self)
    have htail : ∀ d ∈ c' :: components, dot ∉ d := fun d hd => h d (mem_cons_of_mem c hd)
    have ih := dotToSlash_package htail
    unfold package at ih ⊢
    rw [intercalate_cons_cons, intercalate_cons_cons, dotToSlash_dotted, hc, ih]

theorem package_eq_nil {components : List Bytes} (h : ∀ c ∈ components, c ≠ []) :
    package components = [] ↔ components = [] := by
  unfold package
  match components with
  | [] => simp
  | [c] =>
    have hc := h c mem_cons_self
    simpa using hc
  | c :: c' :: components =>
    rw [intercalate_cons_cons]
    simp

/-! ## Both tiers -/

section

variable {components : List Bytes} {service method : Bytes}

theorem intercalate_concat {segs : List Bytes} (h : segs ≠ []) (service method : Bytes) :
    intercalate [separator] (segs ++ [service, method]) =
      intercalate [separator] segs ++ [separator] ++ (service ++ [separator] ++ method) := by
  induction segs with
  | nil => exact absurd rfl h
  | cons _ segs ih =>
    cases segs with
    | nil => simp [intercalate_cons_cons]
    | cons seg' segs =>
      have hrest := ih (cons_ne_nil seg' segs)
      rw [cons_append, cons_append, intercalate_cons_cons,
        intercalate_cons_cons, ← cons_append, hrest]
      simp

/-- The gateway cuts the TypeScript topic into the package's components, the service and
the method. -/
theorem splitTopic_topicPath (hc : ∀ c ∈ components, isIdent c = true)
    (hs : isIdent service = true) (hm : isIdent method = true) :
    splitTopic (topicPath (package components) service method) =
      components ++ [service, method] := by
  have hdots : ∀ c ∈ components, dot ∉ c := fun c hmem => (isIdent_not_mem (hc c hmem)).1
  have hemp := package_eq_nil fun c hmem => isIdent_ne_nil (hc c hmem)
  have hpath : topicPath (package components) service method =
      intercalate [separator] (components ++ [service, method]) := by
    unfold topicPath
    by_cases hnil : components = []
    · rw [if_pos (hemp.mpr hnil), hnil]
      simp [intercalate_cons_cons]
    · rw [if_neg (fun h => hnil (hemp.mp h)), dotToSlash_package hdots, intercalate_concat hnil]
  have hne : topicPath (package components) service method ≠ [] := by
    unfold topicPath
    simp
  have hwhole : ∀ seg ∈ components ++ [service, method], separator ∉ seg := by
    intro seg hseg
    rcases mem_append.mp hseg with hseg | hseg
    · exact (isIdent_not_mem (hc seg hseg)).2
    · rcases mem_cons.mp hseg with rfl | hseg
      · exact (isIdent_not_mem hs).2
      · obtain rfl := mem_singleton.mp hseg
        exact (isIdent_not_mem hm).2
  rw [splitTopic, if_neg hne, hpath]
  exact splitOn_intercalate separator hwhole (by simp)

/-- With one component or none, the C++ segments are the same list. -/
theorem emitTopicSegments_eq (hc : ∀ c ∈ components, isIdent c = true)
    (hlen : components.length ≤ 1) :
    emitTopicSegments (package components) service method = components ++ [service, method] := by
  unfold emitTopicSegments
  match components with
  | [] => rfl
  | [c] =>
    have hne := isIdent_ne_nil (hc c mem_cons_self)
    simp [package, hne]
  | c :: c' :: rest => simp at hlen

/-- The C++ list never has more than three segments. -/
theorem length_emitTopicSegments (package service method : Bytes) :
    (emitTopicSegments package service method).length ≤ 3 := by
  unfold emitTopicSegments
  split
  · simp
  · simp

/-- **The two tiers name the same topic** exactly when the package has at most one
component, for every method whose segments make a topic at all. -/
theorem same_topic_iff (hc : ∀ c ∈ components, isIdent c = true) (hs : isIdent service = true)
    (hm : isIdent method = true) :
    (∃ key, joinSegments (splitTopic (topicPath (package components) service method)) = .ok key ∧
      joinSegments (emitTopicSegments (package components) service method) = .ok key) ↔
    components.length ≤ 1 ∧
      requireSegments (emitTopicSegments (package components) service method) = .ok () := by
  rw [splitTopic_topicPath hc hs hm]
  constructor
  · intro h
    obtain ⟨key, hts, hcpp⟩ := h
    refine ⟨?_, (joinSegments_eq_ok.mp hcpp).1⟩
    -- one name has one list, and the lists have different lengths
    have hsame := joinSegments_injective hts hcpp
    have hlen := length_emitTopicSegments (package components) service method
    rw [← hsame, length_append] at hlen
    simp at hlen
    omega
  · intro h
    obtain ⟨hlen, haccepted⟩ := h
    rw [emitTopicSegments_eq hc hlen] at haccepted ⊢
    exact ⟨_, joinSegments_eq_ok.mpr ⟨haccepted, rfl⟩, joinSegments_eq_ok.mpr ⟨haccepted, rfl⟩⟩

end

theorem same_topic_pkg :
    ∃ key, joinSegments (splitTopic (topicPath (package [ascii "pkg"]) (ascii "S") (ascii "M"))) =
        .ok key ∧
      joinSegments (emitTopicSegments (package [ascii "pkg"]) (ascii "S") (ascii "M")) = .ok key :=
  (same_topic_iff (by decide) (by decide) (by decide)).mpr ⟨by decide, by decide⟩

/-- Package `a.b`: TypeScript says `a/b/S/M`, C++ says `a.b/S/M`, and both are topics. -/
theorem dotted_package_differs :
    joinSegments (splitTopic (topicPath (package [ascii "a", ascii "b"]) (ascii "S") (ascii "M"))) =
        .ok (ascii "a/b/S/M") ∧
      joinSegments (emitTopicSegments (package [ascii "a", ascii "b"]) (ascii "S") (ascii "M")) =
        .ok (ascii "a.b/S/M") ∧
      ascii "a/b/S/M" ≠ ascii "a.b/S/M" := by
  refine ⟨by decide, by decide, by decide⟩

end Fletcher.Protoc
