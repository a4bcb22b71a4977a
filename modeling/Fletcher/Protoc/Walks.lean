import Fletcher.Protoc.Enough
import Fletcher.Protoc.Files

/-!
# The walks end

Message references may be cyclic, and three things keep the walks over them finite. The
recursion test and the nesting depth carry the path they came by. The classifier asks the
test before it goes into a message: a message that passes has no cycle below it. The walks
over fields start at messages that have passed.

A step goes from a message to the message of a field, entry messages included (`references`),
where the test goes past the entry to the map's value (`dependencies`). Without a cycle in
the one graph there is none in the other.
-/

namespace Fletcher.Protoc

open Lib Arrow Fletcher.Core

variable {n : Nat} {m : Fin n} {f : FieldDescriptor n} {pool : Pool n}

/-! ## The recursion test -/

theorem Pool.isRecursiveImpl_eq_revisits (pool : Pool n) : ∀ (k : Nat) (stack : List (Fin n))
    (m : Fin n), pool.isRecursiveImpl k stack m =
      revisits (fun m => (pool m).fields.filterMap pool.descends) k stack m
  | 0, _, _ => rfl
  | k + 1, stack, m => by
    rw [Pool.isRecursiveImpl, revisits, List.any_filterMap]
    congr 2
    funext f
    cases pool.descends f with
    | none => rfl
    | some child => exact isRecursiveImpl_eq_revisits pool k (m :: stack) child

/-- **The recursion test** answers no exactly for the messages below which there is no cycle. -/
theorem isRecursive_eq_false_iff (fs : FileSet n) :
    fs.pool.isRecursive m = false ↔ Grounded fs.dependencies m := by
  rw [Pool.isRecursive, Pool.isRecursiveImpl_eq_revisits]
  exact revisits_eq_false_iff (by rw [Fintype.card_fin]; omega)

/-- `IsRecursiveImpl`, stopped when its fuel is out. -/
def recursionTest (pool : Pool n) : Nat → List (Fin n) → Fin n → Gen Bool
  | 0, _, _ => .error .diverges
  | fuel + 1, stack, m =>
    if stack.contains m then .ok true
    else do
      let hit ← firstM (fun f =>
        match pool.descends f with
        | some child => do
          let recursive ← recursionTest pool fuel (m :: stack) child
          pure (if recursive then some () else none)
        | none => .ok none) (pool m).fields
      pure hit.isSome

/-- `NestingDepthImpl`. -/
def nestingDepthImpl (pool : Pool n) : Nat → List (Fin n) → Fin n → Gen Nat
  | 0, _, _ => .error .diverges
  | fuel + 1, visited, m =>
    if visited.contains m then .ok 0
    else
      (pool m).fields.foldlM (fun depth f =>
        match f.messageType? with
        | some child =>
          if (pool child).mapEntry then .ok depth
          else do
            let inner ← nestingDepthImpl pool fuel (m :: visited) child
            pure (max depth (1 + inner))
        | none => .ok depth) 0

/-- A loop that ends at the first hit finds one exactly if there is one. -/
theorem firstM_isSome {α : Type} {f : α → Gen (Option Unit)} {p : α → Bool} : ∀ as : List α,
    (∀ a ∈ as, f a = .ok (if p a then some () else none)) →
    ∃ r, firstM f as = .ok r ∧ r.isSome = as.any p
  | [], _ => ⟨none, rfl, rfl⟩
  | a :: as, h => by
    obtain ⟨r, hr, hany⟩ := firstM_isSome as fun a' ha' => h a' (List.mem_cons_of_mem a ha')
    rw [firstM, h a List.mem_cons_self, List.any_cons]
    cases ha : p a with
    | true => exact ⟨some (), rfl, rfl⟩
    | false => exact ⟨r, hr, by rw [Bool.false_or]; exact hany⟩

/-- The test is done before its stack has as many messages as there are. -/
theorem recursionTest_eq (pool : Pool n) {k : Nat} (m : Fin n) (hk : n < k) :
    recursionTest pool k [] m = .ok (pool.isRecursiveImpl k [] m) := by
  refine guarded (P := fun k stack m =>
    recursionTest pool k stack m = .ok (pool.isRecursiveImpl k stack m)) ?_ ?_ m List.nodup_nil
    (by simpa using hk)
  · intro k stack m hm
    have hcon := List.contains_iff_mem.mpr hm
    rw [recursionTest, if_pos hcon, Pool.isRecursiveImpl, hcon, Bool.true_or]
  · intro k stack m hm ih
    obtain ⟨r, hr, hsome⟩ := firstM_isSome (pool m).fields (f := fun f =>
        match pool.descends f with
        | some child => do
          let recursive ← recursionTest pool k (m :: stack) child
          pure (if recursive then some () else none)
        | none => .ok none)
      (p := fun f =>
        match pool.descends f with
        | some child => pool.isRecursiveImpl k (m :: stack) child
        | none => false) (by
        intro f _
        cases hd : pool.descends f with
        | none => rfl
        | some child => simp only [ih, ok_bind]; rfl)
    have hcon : stack.contains m = false := by simpa using hm
    rw [recursionTest, hcon, if_neg Bool.false_ne_true, hr, Pool.isRecursiveImpl]
    show Except.ok r.isSome = _
    exact (congrArg Except.ok hsome).trans (congrArg (fun b => Except.ok (b || _)) hcon.symm)

theorem recursionTest_settles (pool : Pool n) (m : Fin n) :
    Settles (fun k => recursionTest pool k [] m) (pool.isRecursive m) := by
  refine ⟨n + 1, fun k hk => ?_⟩
  show recursionTest pool k [] m = _
  rw [recursionTest_eq pool m (by omega), Pool.isRecursive, Pool.isRecursiveImpl_eq_revisits,
    Pool.isRecursiveImpl_eq_revisits]
  -- with enough fuel the test says whether the message is grounded, whatever the fuel
  have hcard : ∀ {k}, n + 1 ≤ k → Fintype.card (Fin n) < k := by
    intro k hk
    rw [Fintype.card_fin]
    omega
  congr 1
  rw [Bool.eq_iff_iff, ← not_iff_not, Bool.not_eq_true, Bool.not_eq_true,
    revisits_eq_false_iff (hcard hk), revisits_eq_false_iff (hcard (Nat.le_refl _))]

theorem foldlM_ok {α σ : Type} {f : σ → α → Gen σ} : ∀ {as : List α},
    (∀ a ∈ as, ∀ s, ∃ s', f s a = .ok s') → ∀ s, ∃ s', as.foldlM f s = .ok s'
  | [], _, s => ⟨s, rfl⟩
  | a :: as, h, s => by
    obtain ⟨s₁, h₁⟩ := h a List.mem_cons_self s
    obtain ⟨s₂, h₂⟩ := foldlM_ok (fun a' ha' => h a' (List.mem_cons_of_mem a ha')) s₁
    exact ⟨s₂, by rw [List.foldlM_cons, h₁]; exact h₂⟩

theorem nestingDepthImpl_below (pool : Pool n) : ∀ (k : Nat) (visited : List (Fin n)) (m : Fin n),
    Below (nestingDepthImpl pool k visited m) (nestingDepthImpl pool (k + 1) visited m)
  | 0, _, _ => below_error
  | k + 1, visited, m => by
    rw [nestingDepthImpl, nestingDepthImpl]
    split
    · exact .refl _
    · refine Below.foldlM (fun depth f => ?_) _ _
      split
      · split
        · exact .refl _
        · exact Below.bind (nestingDepthImpl_below pool k _ _) fun _ => .refl _
      · exact .refl _

theorem nestingDepth_halts (pool : Pool n) (m : Fin n) :
    Halts fun k => nestingDepthImpl pool k [] m := by
  have hrets : ∃ depth, nestingDepthImpl pool (n + 1) [] m = .ok depth := by
    refine guarded (P := fun k visited m => ∃ depth, nestingDepthImpl pool k visited m = .ok depth)
      ?_ ?_ m List.nodup_nil (by simp)
    · intro k visited m hm
      exact ⟨0, by rw [nestingDepthImpl, if_pos (List.contains_iff_mem.mpr hm)]⟩
    · intro k visited m hm ih
      rw [nestingDepthImpl, if_neg (mt List.contains_iff_mem.mp hm)]
      refine foldlM_ok (fun f _ depth => ?_) 0
      split
      · split
        · exact ⟨depth, rfl⟩
        · rename_i child _ _
          obtain ⟨_, hinn⟩ := ih child
          exact ⟨_, by rw [hinn]; rfl⟩
      · exact ⟨depth, rfl⟩
  obtain ⟨depth, hdepth⟩ := hrets
  exact ⟨depth, settles_of_ok (fun k => nestingDepthImpl_below pool k [] m) hdepth⟩

/-! ## The classifier -/

/-- The messages a message's fields refer to, entries among them. -/
def Pool.references (pool : Pool n) (m : Fin n) : List (Fin n) :=
  (pool m).fields.filterMap FieldDescriptor.messageType?

theorem mem_references {c : Fin n}
    (hf : f ∈ (pool m).fields) (hc : f.messageType? = some c) : c ∈ pool.references m :=
  List.mem_filterMap.mpr ⟨f, hf, hc⟩

/-- The test's graph has a cycle wherever the classifier's has. -/
theorem grounded_references {fs : FileSet n} (h : Grounded fs.dependencies m) :
    Grounded fs.pool.references m := by
  induction h with
  | intro m _ ih =>
    refine Acc.intro m fun c hc => ?_
    obtain ⟨f, hf, hc⟩ := List.mem_filterMap.mp hc
    cases hent : (fs.pool c).mapEntry with
    | false => exact ih c (List.mem_filterMap.mpr ⟨f, hf, descends_of_not_entry hc hent⟩)
    | true =>
      obtain ⟨_, _, hfs, hkey, -⟩ := fs.entry hent
      refine Acc.intro c fun v hv => ?_
      obtain ⟨g, hg, hv⟩ := List.mem_filterMap.mp hv
      rw [hfs] at hg
      rcases List.mem_pair.mp hg with rfl | rfl
      · rw [messageType_eq_some.mp hv] at hkey
        cases hkey
      · refine ih v (List.mem_filterMap.mpr ⟨f, hf, ?_⟩)
        rw [descends_of_entry hc hent hfs]
        exact hv

theorem grounded_of_not_recursive {fs : FileSet n}
    (h : fs.pool.isRecursive m = false) : Grounded fs.pool.references m :=
  grounded_references ((isRecursive_eq_false_iff fs).mp h)

theorem not_recursive_of_grounded {fs : FileSet n} (h : Grounded fs.pool.references m) :
    fs.pool.isRecursive m = false := by
  rw [isRecursive_eq_false_iff]
  refine h.induction fun m _ ih => Acc.intro m fun c hc => ih c ?_
  obtain ⟨f, hf, hc⟩ := List.mem_filterMap.mp hc
  unfold Pool.descends at hc
  split at hc
  · next e he =>
    split at hc
    · split at hc
      · next hfs =>
        exact .head (mem_references hf he) (.single (mem_references (by rw [hfs]; simp) hc))
      · cases hc
    · cases hc
      exact .single (mem_references hf he)
  · cases hc

/-- One turn of the walk down a chain of wrappers: it ends, or goes on at a message the
current one refers to. -/
theorem flattenWalk_succ {depth : Nat} :
    (∃ leaf, (∀ k, flattenWalk pool (k + 1) depth m = .ok leaf) ∧ ∀ d c, leaf = .message d c →
      Relation.ReflTransGen (Edge pool.references) m c) ∨
    ∃ depth', ∃ c ∈ pool.references m,
      ∀ k, flattenWalk pool (k + 1) depth m = flattenWalk pool k depth' c := by
  by_cases hflat : (pool m).flatten = true
  · cases hfs : (pool m).fields with
    | nil =>
      refine .inl ⟨.message depth m, fun k => by simp [flattenWalk, hflat, hfs], ?_⟩
      intro d c h
      cases h
      exact .refl
    | cons inner rest =>
      cases rest with
      | cons f rest =>
        refine .inl ⟨.message depth m, fun k => by simp [flattenWalk, hflat, hfs], ?_⟩
        intro d c h
        cases h
        exact .refl
      | nil =>
        cases htype : inner.messageType? with
        | some c =>
          have hc : c ∈ pool.references m :=
            mem_references (by rw [hfs]; exact List.mem_singleton_self inner) htype
          rw [messageType_eq_some] at htype
          by_cases hrep : inner.isRepeated = true
          · exact .inr ⟨depth + 1, c, hc, fun k => by
              simp [flattenWalk, hflat, hfs, htype, hrep]⟩
          · by_cases hinn : (pool c).flatten = true
            · exact .inr ⟨depth, c, hc, fun k => by
                simp [flattenWalk, hflat, hfs, htype, hrep, hinn]⟩
            · refine .inl ⟨.message depth c, fun k => by
                simp [flattenWalk, hflat, hfs, htype, hrep, hinn], ?_⟩
              intro d e h
              cases h
              exact .single hc
        | none =>
          -- a scalar, or a group
          refine .inl ⟨if isSupportedScalarType inner.type then
            .scalar (if inner.isRepeated then depth + 2 else depth + 1) (primitiveKind inner.type)
            else .unsupported, fun k => ?_, ?_⟩
          · have hne : ∀ c, inner.type ≠ .message c := by
              intro c h
              rw [← messageType_eq_some, htype] at h
              cases h
            simp only [flattenWalk, hflat, hfs, if_true]
            cases ht : inner.type <;>
              first
              | exact absurd ht (hne _)
              | rfl
          · intro d c h
            split at h <;> cases h
  · refine .inl ⟨.message depth m, fun k => by simp [flattenWalk, hflat], ?_⟩
    intro d c h
    cases h
    exact .refl

/-- The walk down a chain of wrappers ends, at a message that can be reached. -/
theorem flattenWalk_settles (h : Grounded pool.references m) :
    ∀ depth, ∃ leaf, Settles (fun k => flattenWalk pool k depth m) leaf ∧
      ∀ d c, leaf = .message d c → Relation.ReflTransGen (Edge pool.references) m c := by
  induction h with
  | intro m _ ih =>
    intro depth
    rcases flattenWalk_succ with ⟨leaf, hleaf, hrch⟩ | ⟨depth', c, hc, hstep⟩
    · exact ⟨leaf, .succ (.congr hleaf (.ok leaf)), hrch⟩
    · obtain ⟨leaf, hleaf, hrch⟩ := ih c hc depth'
      exact ⟨leaf, .succ (.congr hstep hleaf), fun d e he => .head hc (hrch d e he)⟩

/-- Every field of the message is classified. -/
def Classified (pool : Pool n) (m : Fin n) : Prop :=
  ∀ f ∈ (pool m).fields, Halts (buildFieldIr pool · f)

/-- A field is classified if what is below its message is. -/
theorem buildFieldIr_halts_of {fs : FileSet n} (h : ∀ m, f.messageType? = some m → ∀ c,
      Relation.ReflTransGen (Edge fs.pool.references) m c → Grounded fs.pool.references c →
      Classified fs.pool c) : Halts (buildFieldIr fs.pool · f) := by
  have hstruct : ∀ {facts m c wrap}, f.messageType? = some m →
      Relation.ReflTransGen (Edge fs.pool.references) m c → fs.pool.isRecursive c = false →
      Halts fun k => Step.run fs.pool (buildFieldIr fs.pool k) f (.struct facts c wrap) := by
    intro facts m c wrap hm hc hrec
    exact ((Halts.mapM (h m hm c hc (grounded_of_not_recursive hrec))).map _).map wrap
  obtain ⟨r, ht, hr⟩ := takes fs.pool f
  suffices hrun : Halts fun k => r.run fs.pool (buildFieldIr fs.pool k) f (k + 1) from
    .succ (.congr hr hrun)
  cases ht with
  | unsupported => exact .ok _
  | scalar => exact .ok _
  | wkt => exact .ok _
  | scalarMap => exact .ok _
  | malformed hent hno =>
    obtain ⟨key, value, hfs, -⟩ := fs.entry hent
    exact absurd hfs (hno key value)
  | map hmap hv _ hrec =>
    exact hstruct hmap.type (.single (mem_references (by rw [hmap.fields]; simp) hv)) hrec
  | message hens =>
    unfold Step.message
    split <;> exact hstruct hens.type .refl hens.grounded
  | wrapped hens _ _ hfs =>
    exact (h _ hens.type _ .refl (grounded_of_not_recursive hens.grounded) _
      (by rw [hfs]; exact List.mem_singleton_self _)).map _
  | chain hens =>
    obtain ⟨leaf, hleaf, hrch⟩ := flattenWalk_settles (grounded_of_not_recursive hens.grounded) 0
    refine Halts.bind ⟨leaf, hleaf.shift⟩ fun leaf' hleaf' => ?_
    obtain rfl := hleaf.shift.unique hleaf'
    cases leaf with
    | unsupported => exact .ok _
    | scalar levels kind => exact .ok _
    | message depth c =>
      dsimp only [FlattenLeaf.step]
      split
      · exact .ok _
      · next hrec => exact hstruct hens.type (hrch depth c rfl) (Bool.eq_false_iff.mpr hrec)

theorem classified_of_grounded (fs : FileSet n) (h : Grounded fs.pool.references m) :
    Classified fs.pool m := by
  refine h.induction fun m hm ih => ?_
  intro f hf
  refine buildFieldIr_halts_of fun c hc d hd hg => ?_
  exact ih d (Relation.TransGen.head' (mem_references hf hc) hd)

/-- **The classifier** ends on every field, whatever the message references are. -/
theorem buildFieldIr_halts (fs : FileSet n) (f : FieldDescriptor n) :
    Halts (buildFieldIr fs.pool · f) :=
  buildFieldIr_halts_of fun _ _ _ _ hg => classified_of_grounded fs hg

/-! ## Without fuel -/

namespace FileSet

variable (fs : FileSet n)

/-- What a field is classified as. -/
noncomputable def classify (f : FieldDescriptor n) : IrNode n := (buildFieldIr_halts fs f).choose

theorem classify_settles (f : FieldDescriptor n) :
    Settles (fun k => buildFieldIr fs.pool k f) (fs.classify f) :=
  (buildFieldIr_halts fs f).choose_spec

open Classical in
/-- Where the walk down a chain of wrappers ends. -/
noncomputable def chainEnd (w : Fin n) : FlattenLeaf n :=
  if h : ∃ leaf, Settles (fun k => flattenWalk fs.pool k 0 w) leaf then h.choose else .unsupported

variable {fs}

theorem chainEnd_settles {w : Fin n} (h : Grounded fs.pool.references w) :
    Settles (fun k => flattenWalk fs.pool k 0 w) (fs.chainEnd w) := by
  obtain ⟨leaf, hleaf, -⟩ := flattenWalk_settles h 0
  have hsome : ∃ leaf, Settles (fun k => flattenWalk fs.pool k 0 w) leaf := ⟨leaf, hleaf⟩
  rw [chainEnd, dif_pos hsome]
  exact hsome.choose_spec

variable (fs) in
/-- What a rule comes to. -/
noncomputable def nodeOf (f : FieldDescriptor n) : Step n → IrNode n
  | .done node => node
  | .struct facts m wrap => wrap (.struct facts m ((fs.pool m).fields.map fs.classify))
  | .inner g => if f.isNullable then (fs.classify g).setNullable else fs.classify g
  | .fail => makeUnsupported f ""

theorem run_settles {s : Step n} (hs : s ≠ .fail) :
    Settles (fun k => s.run fs.pool (buildFieldIr fs.pool k) f) (fs.nodeOf f s) := by
  cases s with
  | done node => exact .ok node
  | struct facts m wrap =>
    exact ((Settles.mapM_map fs.classify_settles _).map (IrNode.struct facts m)).map wrap
  | inner g =>
    exact (fs.classify_settles g).map fun node => if f.isNullable then node.setNullable else node
  | fail => exact absurd rfl hs

theorem classify_step {s : Step n} (h : Applies fs.pool f (.step s)) :
    fs.classify f = fs.nodeOf f s := by
  refine (fs.classify_settles f).unique (.succ (.congr h (run_settles ?_)))
  intro hs
  obtain ⟨k, hk⟩ := (fs.classify_settles f).shift.returns
  rw [h k, hs] at hk
  cases hk

theorem classify_chain {w : Fin n} (hw : Grounded fs.pool.references w)
    (h : Applies fs.pool f (.chain w)) :
    fs.classify f = fs.nodeOf f ((fs.chainEnd w).step fs.pool f) := by
  refine (fs.classify_settles f).unique (.succ (.congr h ((chainEnd_settles hw).shift.bind
    (run_settles ?_))))
  unfold FlattenLeaf.step
  split
  · nofun
  · nofun
  · split <;> nofun

end FileSet

end Fletcher.Protoc
