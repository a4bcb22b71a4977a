import Fletcher.Lib.Fuel
import Fletcher.Protoc.Ir

/-!
# What the classifier does with a field

The classifier looks at a field and its message, and then either knows the node, or builds the
struct of a message, or goes on at the one field of a wrapper, or walks down a chain of
wrappers. `Takes` lists these rules, each with what has been tested on the way, and
`takes` says that there is nothing else: what holds of every classification is proved rule by
rule.
-/

namespace Fletcher.Protoc

open Lib Fletcher.Core

variable {n : Nat}

/-- What is left to do for a field. -/
inductive Step (n : Nat) where
  | done (node : IrNode n)
  /-- The struct of a message, inside `wrap`. -/
  | struct (facts : FieldFacts) (m : Fin n) (wrap : IrNode n → IrNode n)
  /-- The one field of a wrapper. -/
  | inner (g : FieldDescriptor n)
  /-- An entry without a key and a value. -/
  | fail

inductive Rule (n : Nat) where
  | step (s : Step n)
  /-- What stands at the end of a chain of wrappers. -/
  | chain (w : Fin n)

/-- What the end of a chain comes to. -/
def FlattenLeaf.step (pool : Pool n) (f : FieldDescriptor n) : FlattenLeaf n → Step n
  | .unsupported => .done (makeUnsupported f "flatten wrapper leaf type unsupported")
  | .scalar levels kind =>
    .done (withFacts (baseFacts f) (listLevels levels (.scalar (baseFacts f) kind)))
  | .message depth c =>
    if pool.isRecursive c then .done (makeUnsupported f (recursiveReason pool c))
    else .struct {} c fun node => withFacts (baseFacts f) (listLevels (depth + 1) node)

/-- The struct of the field's own message. -/
def Step.message (f : FieldDescriptor n) (m : Fin n) : Step n :=
  if f.isRepeated then .struct {} m (IrNode.list (baseFacts f))
  else .struct (singularFacts f) m id

section Run

variable (pool : Pool n) (build : FieldDescriptor n → Gen (IrNode n)) (f : FieldDescriptor n)

def Step.run : Step n → Gen (IrNode n)
  | .done node => .ok node
  | .struct facts m wrap => do
    let node ← makeStructNode pool build facts m
    pure (wrap node)
  | .inner g => do
    let node ← build g
    pure (if f.isNullable then node.setNullable else node)
  | .fail => .error .undefined

def Rule.run (fuel : Nat) : Rule n → Gen (IrNode n)
  | .step s => s.run pool build f
  | .chain w => do
    let leaf ← flattenWalk pool fuel 0 w
    (leaf.step pool f).run pool build f

end Run

/-- The field is one the classifier goes into a message for. -/
structure Enters (pool : Pool n) (f : FieldDescriptor n) (m : Fin n) : Prop where
  oneof : f.realOneof = none
  type : f.messageType? = some m
  entry : (pool m).mapEntry = false
  wkt : f.isRepeated = true ∨ tryBuildWkt f (pool m).fullName = none
  dynamic : dynamicWktUnsupportedReason (pool m).fullName = none
  grounded : pool.isRecursive m = false

/-- The field is a map with a key the classifier takes. -/
structure IsMapOf (pool : Pool n) (f : FieldDescriptor n) (entry : Fin n)
    (key value : FieldDescriptor n) : Prop where
  oneof : f.realOneof = none
  type : f.messageType? = some entry
  isEntry : (pool entry).mapEntry = true
  fields : (pool entry).fields = [key, value]
  scalarKey : isSupportedScalarType key.type = true

/-- The reasons that name a recursive message. -/
def SaysRecursive (reason : String) : Prop :=
  ∃ start ∈ ["message '", "map value message '"], ∃ name,
    reason = start ++ name ++ "' is recursive and cannot be represented in Arrow"

/-- The rules, with what is tested before each. -/
inductive Takes (pool : Pool n) (f : FieldDescriptor n) : Rule n → Prop where
  | unsupported (reason : String) :
    (SaysRecursive reason → ∃ m, pool.descends f = some m ∧ pool.isRecursive m = true) →
    Takes pool f (.step (.done (makeUnsupported f reason)))
  | scalar : f.realOneof = none → f.messageType? = none →
    Takes pool f (.step (.done (if f.isRepeated then
      .list (baseFacts f) (.scalar (baseFacts f) (primitiveKind f.type))
      else .scalar (singularFacts f) (primitiveKind f.type))))
  | wkt {m : Fin n} {node : IrNode n} : f.realOneof = none → f.messageType? = some m →
    (pool m).mapEntry = false → f.isRepeated = false →
    tryBuildWkt f (pool m).fullName = some node → Takes pool f (.step (.done node))
  | malformed {entry : Fin n} : (pool entry).mapEntry = true →
    (∀ key value, (pool entry).fields ≠ [key, value]) → Takes pool f (.step .fail)
  | scalarMap {entry : Fin n} {key value : FieldDescriptor n} : IsMapOf pool f entry key value →
    value.messageType? = none →
    Takes pool f (.step (.done (.map (baseFacts f)
      (.scalar (baseFacts key) (primitiveKind key.type))
      (.scalar (baseFacts value) (primitiveKind value.type)))))
  | map {entry v : Fin n} {key value : FieldDescriptor n} : IsMapOf pool f entry key value →
    value.messageType? = some v → dynamicWktUnsupportedReason (pool v).fullName = none →
    pool.isRecursive v = false →
    Takes pool f (.step (.struct {} v
      (IrNode.map (baseFacts f) (.scalar (baseFacts key) (primitiveKind key.type)))))
  | message {m : Fin n} : Enters pool f m → pool.isFlattenedWrapper m = false →
    Takes pool f (.step (.message f m))
  | wrapped {inner : FieldDescriptor n} {w : Fin n} : Enters pool f w → f.isRepeated = false →
    (pool w).flatten = true → (pool w).fields = [inner] → Takes pool f (.step (.inner inner))
  | chain {inner : FieldDescriptor n} {w : Fin n} : Enters pool f w → f.isRepeated = true →
    (pool w).flatten = true → (pool w).fields = [inner] → Takes pool f (.chain w)

variable {pool : Pool n} {f : FieldDescriptor n} {m : Fin n}

/-- The texts of all other reasons begin differently. -/
theorem not_saysRecursive {reason : String}
    (h : ∀ start ∈ ["message '", "map value message '"], ¬ start.toList <+: reason.toList) :
    ¬ SaysRecursive reason := by
  intro ⟨start, hs, name, hreason⟩
  refine h start hs ?_
  rw [hreason, String.append_assoc, String.toList_append]
  exact List.prefix_append _ _

/-- The field is refused for something else. -/
theorem Takes.other (reason : String)
    (h : ∀ start ∈ ["message '", "map value message '"], ¬ start.toList <+: reason.toList) :
    Takes pool f (.step (.done (makeUnsupported f reason))) :=
  .unsupported reason fun hs => absurd hs (not_saysRecursive h)

theorem dynamic_not_saysRecursive {fullName reason : String}
    (h : dynamicWktUnsupportedReason fullName = some reason) : ¬ SaysRecursive reason := by
  unfold dynamicWktUnsupportedReason at h
  split at h
  · cases h
    exact not_saysRecursive (by decide)
  · split at h
    · cases h
      exact not_saysRecursive (by decide)
    · cases h

theorem messageType_eq_some : f.messageType? = some m ↔ f.type = .message m := by
  unfold FieldDescriptor.messageType?
  cases f.type <;> simp

theorem tryBuildWkt_scalar {fullName : String} {node : IrNode n}
    (h : tryBuildWkt f fullName = some node) : ∃ facts kind, node = .scalar facts kind := by
  unfold tryBuildWkt at h
  split at h
  · cases h
    exact ⟨_, _, rfl⟩
  · split at h
    · cases h
      exact ⟨_, _, rfl⟩
    · obtain ⟨kind, -, rfl⟩ := Option.map_eq_some_iff.mp h
      exact ⟨_, kind, rfl⟩

theorem descends_of_not_entry (hf : f.messageType? = some m) (hm : (pool m).mapEntry = false) :
    pool.descends f = some m := by
  rw [Pool.descends, hf]
  simp [hm]

theorem descends_of_entry {key value : FieldDescriptor n}
    (hf : f.messageType? = some m) (hm : (pool m).mapEntry = true)
    (hfs : (pool m).fields = [key, value]) : pool.descends f = value.messageType? := by
  rw [Pool.descends, hf]
  simp [hm, hfs]

/-- What the struct of a message, inside something, comes to. -/
theorem Step.run_struct {build : FieldDescriptor n → Gen (IrNode n)} {facts : FieldFacts}
    {wrap : IrNode n → IrNode n} {node : IrNode n}
    (h : Step.run pool build f (.struct facts m wrap) = .ok node) :
    ∃ fields, node = wrap (.struct facts m fields) := by
  obtain ⟨struct, hstr, hnode⟩ := bind_eq_ok_iff.mp h
  obtain ⟨fields, -, hfs⟩ := bind_eq_ok_iff.mp hstr
  cases hfs
  cases hnode
  exact ⟨fields, rfl⟩

theorem isFlattenedWrapper_iff : pool.isFlattenedWrapper m = true ↔
    (pool m).flatten = true ∧ ∃ inner, (pool m).fields = [inner] := by
  rw [Pool.isFlattenedWrapper, Bool.and_eq_true, beq_iff_eq, List.length_eq_one_iff]

/-- The rule is the field's, at any fuel. -/
def Applies (pool : Pool n) (f : FieldDescriptor n) (r : Rule n) : Prop :=
  ∀ k, buildFieldIr pool (k + 1) f = r.run pool (buildFieldIr pool k) f (k + 1)

theorem applies_scalar (hone : f.realOneof = none) (hf : f.messageType? = none) :
    Applies pool f (.step (.done (if f.isRepeated then
      .list (baseFacts f) (.scalar (baseFacts f) (primitiveKind f.type))
      else .scalar (singularFacts f) (primitiveKind f.type)))) := by
  have hne : ∀ m, f.type ≠ .message m := by
    intro m h
    rw [← messageType_eq_some, hf] at h
    cases h
  intro k
  simp only [buildFieldIr, hone]
  cases f.isRepeated <;> rfl

theorem applies_wkt {node : IrNode n} (hone : f.realOneof = none) (hf : f.messageType? = some m)
    (hent : (pool m).mapEntry = false) (hrep : f.isRepeated = false)
    (hnode : tryBuildWkt f (pool m).fullName = some node) :
    Applies pool f (.step (.done node)) := by
  intro k
  rw [buildFieldIr, hone, messageType_eq_some.mp hf]
  simp [hent, hrep, hnode, Rule.run, Step.run]

namespace Enters

theorem build (h : Enters pool f m) (k : Nat) : buildFieldIr pool (k + 1) f =
    if f.isRepeated then
      if (pool m).flatten then buildFlattenedRepeated pool (buildFieldIr pool k) (k + 1) f m
      else do
        let leaf ← makeStructNode pool (buildFieldIr pool k) {} m
        pure (.list (baseFacts f) leaf)
    else if (pool m).flatten then buildFlattenedSingular pool (buildFieldIr pool k) f m
    else makeStructNode pool (buildFieldIr pool k) (singularFacts f) m := by
  rw [buildFieldIr, h.oneof, messageType_eq_some.mp h.type]
  cases hrep : f.isRepeated with
  | true => simp [h.entry, buildRepeatedMessage, h.dynamic, h.grounded]
  | false =>
    have hwkt : tryBuildWkt f (pool m).fullName = none :=
      h.wkt.resolve_left (by rw [hrep]; exact Bool.false_ne_true)
    simp [h.entry, hwkt, buildSingularMessage, h.dynamic, h.grounded]

theorem message (h : Enters pool f m) (hw : pool.isFlattenedWrapper m = false) :
    Applies pool f (.step (.message f m)) := by
  intro k
  have hone : (pool m).flatten = true → ∀ inner, (pool m).fields ≠ [inner] := by
    intro hflat inner hfs
    rw [isFlattenedWrapper_iff.mpr ⟨hflat, inner, hfs⟩] at hw
    cases hw
  rw [h.build, Rule.run, Step.message]
  cases f.isRepeated with
  | true =>
    rw [if_pos rfl, if_pos rfl]
    split
    · next hflat =>
      unfold buildFlattenedRepeated
      split
      · next inner hfs => exact absurd hfs (hone hflat inner)
      · rfl
    · rfl
  | false =>
    refine Eq.trans ?_
      (bind_pure (makeStructNode pool (buildFieldIr pool k) (singularFacts f) m)).symm
    rw [if_neg Bool.false_ne_true]
    split
    · next hflat =>
      unfold buildFlattenedSingular
      split
      · next inner hfs => exact absurd hfs (hone hflat inner)
      · rfl
    · rfl

theorem wrapped {inner : FieldDescriptor n} (h : Enters pool f m) (hrep : f.isRepeated = false)
    (hflat : (pool m).flatten = true) (hfs : (pool m).fields = [inner]) :
    Applies pool f (.step (.inner inner)) := by
  intro k
  rw [h.build, hrep, hflat, buildFlattenedSingular, hfs]
  rfl

theorem chain {inner : FieldDescriptor n} (h : Enters pool f m) (hrep : f.isRepeated = true)
    (hflat : (pool m).flatten = true) (hfs : (pool m).fields = [inner]) :
    Applies pool f (.chain m) := by
  intro k
  rw [h.build, hrep, hflat, if_pos rfl, if_pos rfl, buildFlattenedRepeated, hfs]
  refine bind_congr fun leaf => ?_
  cases leaf with
  | message depth c =>
    dsimp only [FlattenLeaf.step]
    split <;> rfl
  | _ => rfl

theorem takes (h : Enters pool f m) : ∃ r, Takes pool f r ∧ Applies pool f r := by
  cases hw : pool.isFlattenedWrapper m with
  | false => exact ⟨_, .message h hw, h.message hw⟩
  | true =>
    obtain ⟨hflat, inner, hfs⟩ := isFlattenedWrapper_iff.mp hw
    cases hrep : f.isRepeated with
    | true => exact ⟨_, .chain h hrep hflat hfs, h.chain hrep hflat hfs⟩
    | false => exact ⟨_, .wrapped h hrep hflat hfs, h.wrapped hrep hflat hfs⟩

end Enters

namespace IsMapOf

variable {entry v : Fin n} {key value : FieldDescriptor n}

theorem build (h : IsMapOf pool f entry key value) (k : Nat) : buildFieldIr pool (k + 1) f = (do
    match ← buildMapValue pool (buildFieldIr pool k) value with
    | .ok node => pure (.map (baseFacts f) (.scalar (baseFacts key) (primitiveKind key.type)) node)
    | .error reason => pure (makeUnsupported f reason)) := by
  rw [buildFieldIr, h.oneof, messageType_eq_some.mp h.type]
  simp only [h.isEntry, if_true, buildMapNode, h.fields]
  exact if_pos h.scalarKey

theorem descends (h : IsMapOf pool f entry key value) : pool.descends f = value.messageType? :=
  descends_of_entry h.type h.isEntry h.fields

theorem map (h : IsMapOf pool f entry key value) (hv : value.messageType? = some v)
    (hdyn : dynamicWktUnsupportedReason (pool v).fullName = none)
    (hrec : pool.isRecursive v = false) : Applies pool f (.step (.struct {} v
      (IrNode.map (baseFacts f) (.scalar (baseFacts key) (primitiveKind key.type))))) := by
  intro k
  rw [h.build, buildMapValue, messageType_eq_some.mp hv]
  simp [hdyn, hrec, Rule.run, Step.run]

theorem takes (h : IsMapOf pool f entry key value) : ∃ r, Takes pool f r ∧ Applies pool f r := by
  cases hv : value.messageType? with
  | none =>
    -- a scalar, or a group
    have hne : ∀ v, value.type ≠ .message v := by
      intro v h
      rw [← messageType_eq_some, hv] at h
      cases h
    cases hval : isSupportedScalarType value.type with
    | false => exact ⟨_, .other "map value type unsupported" (by decide), fun k => by
        rw [h.build]; simp only [buildMapValue, hval]; rfl⟩
    | true => exact ⟨_, .scalarMap h hv, fun k => by
        rw [h.build]; simp only [buildMapValue, hval]; rfl⟩
  | some v =>
    have hvt := messageType_eq_some.mp hv
    cases hdyn : dynamicWktUnsupportedReason (pool v).fullName with
    | some reason =>
      exact ⟨_, .unsupported reason fun hs => absurd hs (dynamic_not_saysRecursive hdyn),
        fun k => by
        rw [h.build, buildMapValue, hvt]; simp only [hdyn]; rfl⟩
    | none =>
      cases hrec : pool.isRecursive v with
      | true => exact ⟨_, .unsupported _ fun _ => ⟨v, by rw [h.descends, hv], hrec⟩, fun k => by
          rw [h.build, buildMapValue, hvt]; simp only [hdyn, hrec]; rfl⟩
      | false => exact ⟨_, .map h hv hdyn hrec, h.map hv hdyn hrec⟩

end IsMapOf

/-- **The rules of the classifier.** -/
theorem takes (pool : Pool n) (f : FieldDescriptor n) :
    ∃ r, Takes pool f r ∧ Applies pool f r := by
  cases hone : f.realOneof with
  | some oneof =>
    refine ⟨_, .other _ ?_, fun k => by rw [buildFieldIr, hone]; rfl⟩
    simp
  | none =>
    cases hf : f.messageType? with
    | none => exact ⟨_, .scalar hone hf, applies_scalar hone hf⟩
    | some m =>
      have hm := messageType_eq_some.mp hf
      cases hent : (pool m).mapEntry with
      | true =>
        have hbuild : ∀ k, buildFieldIr pool (k + 1) f =
            buildMapNode pool (buildFieldIr pool k) f m := by
          intro k
          rw [buildFieldIr, hone, hm]
          exact if_pos hent
        by_cases htwo : ∃ key value, (pool m).fields = [key, value]
        · obtain ⟨key, value, hfs⟩ := htwo
          cases hkey : isSupportedScalarType key.type with
          | true => exact IsMapOf.takes ⟨hone, hf, hent, hfs, hkey⟩
          | false =>
            refine ⟨_, .other _ ?_, fun k => by
              rw [hbuild, buildMapNode, hfs]; simp only [hkey]; rfl⟩
            decide
        · refine ⟨_, .malformed hent fun key value hfs => htwo ⟨key, value, hfs⟩, fun k => ?_⟩
          rw [hbuild, buildMapNode]
          split
          · next hfs => exact absurd ⟨_, _, hfs⟩ htwo
          · rfl
      | false =>
        by_cases hwkt : f.isRepeated = true ∨ tryBuildWkt f (pool m).fullName = none
        · -- the two branches refuse the same messages
          have hrefuse : ∀ reason, (SaysRecursive reason → ∃ m, pool.descends f = some m ∧
              pool.isRecursive m = true) → (∀ build k, buildRepeatedMessage pool build k f m =
              .ok (makeUnsupported f reason)) → (∀ build, buildSingularMessage pool build f m =
              .ok (makeUnsupported f reason)) → ∃ r, Takes pool f r ∧ Applies pool f r := by
            intro reason hwhy hreps hsing
            refine ⟨_, .unsupported reason hwhy, fun k => ?_⟩
            rw [buildFieldIr, hone, hm]
            simp only [hent, Bool.false_eq_true, if_false]
            split
            · exact hreps _ _
            · next hrep =>
              rw [hwkt.resolve_left hrep]
              exact hsing _
          cases hdyn : dynamicWktUnsupportedReason (pool m).fullName with
          | some reason =>
            exact hrefuse reason (fun hs => absurd hs (dynamic_not_saysRecursive hdyn))
              (fun _ _ => by rw [buildRepeatedMessage, hdyn])
              fun _ => by rw [buildSingularMessage, hdyn]
          | none =>
            cases hrec : pool.isRecursive m with
            | false => exact Enters.takes ⟨hone, hf, hent, hwkt, hdyn, hrec⟩
            | true =>
              exact hrefuse (recursiveReason pool m)
                (fun _ => ⟨m, descends_of_not_entry hf hent, hrec⟩)
                (fun _ _ => by simp only [buildRepeatedMessage, hdyn, hrec, if_true])
                fun _ => by simp only [buildSingularMessage, hdyn, hrec, if_true]
        · rw [not_or, Bool.not_eq_true] at hwkt
          obtain ⟨hrep, hnode⟩ := hwkt
          obtain ⟨node, hnode⟩ := Option.ne_none_iff_exists'.mp hnode
          exact ⟨_, .wkt hone hf hent hrep hnode, applies_wkt hone hf hent hrep hnode⟩

end Fletcher.Protoc
