import Fletcher.Protoc.Walks

/-!
# Which message a field names

An emitter writes the name of at most one message class for a field: that of the struct at the
bottom of the field's node. The classifier gets to a struct on four paths, and `Names` is the
paths, read off the descriptors: a message that is not a wrapper, the one field of a wrapper,
the end of a chain of wrappers under a repeated field, and the value of a map.

On none of them is the struct a recursive message, and on each it can be reached from the
field's own message.
-/

namespace Fletcher.Protoc

open Lib Arrow Fletcher.Core
open FileSet (named target)

variable {n : Nat}

/-- How the classifier came to a struct: on the message of a field, at the end of a chain of
wrappers, as the value of a map. -/
inductive Path where
  | message | chain | mapValue
  deriving DecidableEq, Repr

variable {p : Path} {pool : Pool n} {f : FieldDescriptor n} {d : Fin n}

/-- The class of `d` is named for the field. -/
inductive Names (pool : Pool n) : Path → FieldDescriptor n → Fin n → Prop where
  | message {f : FieldDescriptor n} {m : Fin n} : Enters pool f m →
    pool.isFlattenedWrapper m = false → Names pool .message f m
  | wrapped {p : Path} {f inner : FieldDescriptor n} {w d : Fin n} : Enters pool f w →
    f.isRepeated = false → (pool w).flatten = true → (pool w).fields = [inner] →
    Names pool p inner d → Names pool p f d
  | chain {f inner : FieldDescriptor n} {w d : Fin n} {k depth : Nat} : Enters pool f w →
    f.isRepeated = true → (pool w).flatten = true → (pool w).fields = [inner] →
    flattenWalk pool k 0 w = .ok (.message depth d) → pool.isRecursive d = false →
    Names pool .chain f d
  | mapValue {f key value : FieldDescriptor n} {entry v : Fin n} : f.realOneof = none →
    f.messageType? = some entry → (pool entry).mapEntry = true →
    (pool entry).fields = [key, value] → isSupportedScalarType key.type = true →
    value.messageType? = some v → dynamicWktUnsupportedReason (pool v).fullName = none →
    pool.isRecursive v = false → Names pool .mapValue f v

/-- A walk down a chain of wrappers ends at a message that can be reached. -/
theorem flattenWalk_reach : ∀ {k depth d : Nat} {m c : Fin n},
    flattenWalk pool k depth m = .ok (.message d c) →
    Relation.ReflTransGen (Edge pool.references) m c
  | 0, _, _, _, _, h => nomatch h
  | k + 1, depth, d, m, c, h => by
    rcases flattenWalk_succ with ⟨_, hleaf, hrch⟩ | ⟨_, _, hc', hstep⟩
    · rw [hleaf k] at h
      exact hrch d c (Except.ok.inj h)
    · rw [hstep k] at h
      exact .head hc' (flattenWalk_reach h)

theorem Names.reach (h : Names pool p f d) :
    ∃ m, f.messageType? = some m ∧ Relation.ReflTransGen (Edge pool.references) m d := by
  induction h with
  | message hens _ => exact ⟨_, hens.type, .refl⟩
  | wrapped hens _ _ hfs _ ih =>
    obtain ⟨m, hm, hrch⟩ := ih
    exact ⟨_, hens.type,
      .head (mem_references (by rw [hfs]; exact List.mem_singleton_self _) hm) hrch⟩
  | chain hens _ _ _ hwalk _ => exact ⟨_, hens.type, flattenWalk_reach hwalk⟩
  | mapValue _ hf _ hfs _ hv _ _ =>
    exact ⟨_, hf, .single (mem_references (by rw [hfs]; simp) hv)⟩

/-! ## The struct of a node -/

/-- What a list names is what the leaf of its chain names. -/
theorem named_list (facts : FieldFacts) (e : IrNode n) : named (.list facts e) =
      match e.listLeaf with
      | .struct _ m _ => some m
      | _ => none := by
  cases e with
  | list facts' e' =>
    simp only [named, projectIrToFieldMapping]
    cases (IrNode.list facts' e').listLeaf <;> rfl
  | _ => rfl

theorem named_setNullable (node : IrNode n) : named node.setNullable = named node := by
  cases node with
  | list facts e => rw [IrNode.setNullable, named_list, named_list]
  | map facts key value =>
    cases key with
    | scalar _ _ => cases value <;> rfl
    | _ => rfl
  | _ => rfl

theorem listLeaf_listLevels : ∀ (levels : Nat) (node : IrNode n),
    (listLevels levels node).listLeaf = node.listLeaf
  | 0, _ => rfl
  | levels + 1, node => listLeaf_listLevels levels node

/-- What a field's lists over a leaf name. -/
theorem named_listLevels (facts : FieldFacts) (levels : Nat) (node : IrNode n) :
    named (withFacts facts (listLevels (levels + 1) node)) =
      match node.listLeaf with
      | .struct _ m _ => some m
      | _ => none := by
  rw [listLevels, withFacts, named_list, listLeaf_listLevels]

/-! ## The classifier's paths -/

theorem named_message {build : FieldDescriptor n → Gen (IrNode n)} {m : Fin n} {node : IrNode n}
    (h : (Step.message f m).run pool build f = .ok node) : named node = some m := by
  unfold Step.message at h
  split at h <;> obtain ⟨_, rfl⟩ := Step.run_struct h <;> rfl

/-- What is named at the end of a chain. -/
theorem named_leaf {build : FieldDescriptor n → Gen (IrNode n)} {leaf : FlattenLeaf n}
    {node : IrNode n} (h : (leaf.step pool f).run pool build f = .ok node) : named node = some d ↔
      ∃ depth, leaf = .message depth d ∧ pool.isRecursive d = false := by
  cases leaf with
  | unsupported =>
    cases h
    exact ⟨nofun, nofun⟩
  | scalar levels kind =>
    cases h
    refine ⟨fun hd => ?_, nofun⟩
    cases levels with
    | zero => cases hd
    | succ levels =>
      rw [named_listLevels] at hd
      cases hd
  | message depth c =>
    rw [FlattenLeaf.step] at h
    cases hrec : pool.isRecursive c with
    | true =>
      rw [hrec] at h
      cases h
      refine ⟨nofun, fun hd => ?_⟩
      obtain ⟨_, hc, hd⟩ := hd
      cases hc
      rw [hrec] at hd
      cases hd
    | false =>
      rw [hrec] at h
      obtain ⟨fields, rfl⟩ := Step.run_struct h
      rw [named_listLevels]
      constructor
      · intro hd
        cases hd
        exact ⟨depth, rfl, hrec⟩
      · intro hd
        obtain ⟨_, hc, -⟩ := hd
        cases hc
        rfl

/-- **The paths of the classifier.** What an emitter names for a field is what the field names. -/
theorem names_of_build : ∀ {k : Nat} {f : FieldDescriptor n} {node : IrNode n}
    {d : Fin n}, buildFieldIr pool k f = .ok node → named node = some d → ∃ p, Names pool p f d
  | 0, _, _, _, h, _ => nomatch h
  | k + 1, f, node, d, h, hd => by
    obtain ⟨r, ht, hr⟩ := takes pool f
    rw [hr] at h
    cases ht with
    | unsupported =>
      cases h
      cases hd
    | scalar =>
      cases h
      split at hd <;> cases hd
    | wkt _ _ _ _ hwkt =>
      cases h
      obtain ⟨_, _, rfl⟩ := tryBuildWkt_scalar hwkt
      cases hd
    | malformed => cases h
    | scalarMap =>
      cases h
      cases hd
    | map hmap hv hdyn hrec =>
      obtain ⟨_, rfl⟩ := Step.run_struct (f := f) h
      cases hd
      exact ⟨_, .mapValue hmap.oneof hmap.type hmap.isEntry hmap.fields hmap.scalarKey hv hdyn hrec⟩
    | message hens hw =>
      rw [named_message h] at hd
      cases hd
      exact ⟨_, .message hens hw⟩
    | wrapped hens hrep hflat hfs =>
      obtain ⟨node', hnode', hok⟩ := bind_eq_ok_iff.mp h
      cases hok
      have hd' : named node' = some d := by
        split at hd
        · rwa [named_setNullable] at hd
        · exact hd
      obtain ⟨p, hp⟩ := names_of_build hnode' hd'
      exact ⟨p, .wrapped hens hrep hflat hfs hp⟩
    | chain hens hrep hflat hfs =>
      obtain ⟨leaf, hleaf, h⟩ := bind_eq_ok_iff.mp h
      obtain ⟨depth, rfl, hrec⟩ := (named_leaf h).mp hd
      exact ⟨_, .chain hens hrep hflat hfs hleaf hrec⟩

/-- What a field names is what an emitter names for it. -/
theorem Names.named
    (h : Names pool p f d) {k : Nat} {node : IrNode n} (hbld : buildFieldIr pool k f = .ok node) :
    FileSet.named node = some d := by
  induction h generalizing k node with
  | message hens hw =>
    cases k with
    | zero => cases hbld
    | succ k =>
      rw [hens.message hw] at hbld
      exact named_message hbld
  | wrapped hens hrep hflat hfs _ ih =>
    cases k with
    | zero => cases hbld
    | succ k =>
      rw [hens.wrapped hrep hflat hfs] at hbld
      obtain ⟨_, hnode', hok⟩ := bind_eq_ok_iff.mp hbld
      cases hok
      split
      · rw [named_setNullable]
        exact ih hnode'
      · exact ih hnode'
  | @chain f inner w d k₀ depth hens hrep hflat hfs hwalk hrec =>
    cases k with
    | zero => cases hbld
    | succ k =>
      rw [hens.chain hrep hflat hfs] at hbld
      obtain ⟨leaf, hleaf, hbld⟩ := bind_eq_ok_iff.mp hbld
      obtain rfl := eq_of_fuel (fun k => flattenWalk_below k 0 w) hleaf hwalk
      exact (named_leaf hbld).mpr ⟨depth, rfl, hrec⟩
  | mapValue hone hf hent hfs hkey hv hdyn hrec =>
    cases k with
    | zero => cases hbld
    | succ k =>
      rw [IsMapOf.map ⟨hone, hf, hent, hfs, hkey⟩ hv hdyn hrec, Rule.run] at hbld
      obtain ⟨_, rfl⟩ := Step.run_struct hbld
      rfl

/-! ## What can be named -/

/-- A chain of wrappers does not end at a wrapper. -/
theorem flattenWalk_not_wrapper : ∀ {k depth d : Nat} {m c : Fin n},
    flattenWalk pool k depth m = .ok (.message d c) → pool.isFlattenedWrapper c = false
  | 0, _, _, _, _, h => nomatch h
  | k + 1, depth, d, m, c, h => by
    have not_wrapper : ∀ {c}, ¬((pool c).flatten = true ∧ ∃ inner, (pool c).fields = [inner]) →
        pool.isFlattenedWrapper c = false :=
      fun h => Bool.eq_false_iff.mpr fun hw => h (isFlattenedWrapper_iff.mp hw)
    unfold flattenWalk at h
    split at h
    · split at h
      · split at h
        · split at h
          · exact flattenWalk_not_wrapper h
          · split at h
            · exact flattenWalk_not_wrapper h
            · next hflat =>
              cases h
              exact not_wrapper fun hw => hflat hw.1
        · split at h <;> cases h
      · next hfs =>
        cases h
        exact not_wrapper fun hw => hw.2.elim hfs
    · next hflat =>
      cases h
      exact not_wrapper fun hw => hflat hw.1

/-- Only the value of a map can be a wrapper. -/
theorem Names.not_wrapper
    (h : Names pool p f d) : p ≠ .mapValue → pool.isFlattenedWrapper d = false := by
  induction h with
  | message _ hwrp => exact fun _ => hwrp
  | wrapped _ _ _ _ _ ih => exact ih
  | chain _ _ _ _ hwalk _ => exact fun _ => flattenWalk_not_wrapper hwalk
  | mapValue => exact fun h => absurd rfl h

end Fletcher.Protoc
