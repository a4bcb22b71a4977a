import Fletcher.Protoc.Generation

/-!
# Recursive messages

The recursion test searches depth first, with one set of messages that every call shares. A call
that comes back empty-handed takes its message out again, and a call that has met the set does
not: nothing reads the set after that. So the search answers what it would with a path of its own
in each call (`isRecursiveShared_fst`), and that is whether a cycle can be reached.

The classifier asks the test last. A member of a oneof, `Any`, `Struct` and a singular well-known
scalar are settled before it; `recursion_exact` is about all other fields.
-/

namespace Fletcher.Protoc

open Lib Fletcher.Core

variable {n : Nat} {pool : Pool n} {fs : FileSet n} {f : FieldDescriptor n} {m : Fin n}

/-! ## The shared set -/

/-- The loop over what a message refers to, with the set that each call leaves. -/
def firstHit (visit : List (Fin n) → Fin n → Bool × List (Fin n)) :
    List (Fin n) → List (Fin n) → Bool × List (Fin n)
  | [], stack => (false, stack)
  | c :: cs, stack =>
    match visit stack c with
    | (true, left) => (true, left)
    | (false, left) => firstHit visit cs left

/-- `IsRecursiveImpl` with its `std::set` passed by reference: the answer, and the set as it is
left. -/
def Pool.isRecursiveShared (pool : Pool n) : Nat → List (Fin n) → Fin n → Bool × List (Fin n)
  | 0, stack, _ => (true, stack)
  | fuel + 1, stack, m =>
    if stack.contains m then (true, stack)
    else
      match firstHit (pool.isRecursiveShared fuel) ((pool m).fields.filterMap pool.descends)
          (m :: stack) with
      -- the early return does not erase the message
      | (true, left) => (true, left)
      | (false, left) => (false, left.erase m)

theorem firstHit_spec {visit : List (Fin n) → Fin n → Bool × List (Fin n)}
    {answer : Fin n → Bool} {stack : List (Fin n)}
    (h : ∀ c, (visit stack c).1 = answer c ∧ (answer c = false → (visit stack c).2 = stack)) :
    ∀ cs, (firstHit visit cs stack).1 = cs.any answer ∧
      (cs.any answer = false → (firstHit visit cs stack).2 = stack)
  | [] => ⟨rfl, fun _ => rfl⟩
  | c :: cs => by
    obtain ⟨hans, hleft⟩ := h c
    rw [firstHit, List.any_cons]
    rcases hv : visit stack c with ⟨_ | _, left⟩
    · rw [hv] at hans hleft
      obtain rfl : left = stack := hleft hans.symm
      rw [← hans, Bool.false_or]
      exact firstHit_spec h cs
    · rw [hv] at hans
      rw [← hans]
      exact ⟨rfl, nofun⟩

/-- A search that finds nothing leaves the set as it was. -/
theorem isRecursiveShared_spec (pool : Pool n) (k : Nat) (stack : List (Fin n)) (m : Fin n) :
    (pool.isRecursiveShared k stack m).1 = pool.isRecursiveImpl k stack m ∧
      (pool.isRecursiveImpl k stack m = false → (pool.isRecursiveShared k stack m).2 = stack) := by
  induction k generalizing stack m with
  | zero => exact ⟨rfl, by simp [Pool.isRecursiveImpl]⟩
  | succ k ih =>
    have hloop := firstHit_spec (fun c => ih (m :: stack) c)
      ((pool m).fields.filterMap pool.descends)
    rw [Pool.isRecursiveImpl_eq_revisits, revisits]
    rw [funext (pool.isRecursiveImpl_eq_revisits k (m :: stack))] at hloop
    rw [Pool.isRecursiveShared]
    cases hcon : stack.contains m with
    | true => exact ⟨rfl, by simp⟩
    | false =>
      rw [if_neg Bool.false_ne_true, Bool.false_or, ← hloop.1]
      rw [← hloop.1] at hloop
      split
      · next left hleft =>
        rw [hleft]
        exact ⟨rfl, by simp⟩
      · next left hleft =>
        rw [hleft] at hloop ⊢
        refine ⟨rfl, fun _ => ?_⟩
        obtain rfl : left = m :: stack := hloop.2 rfl
        exact List.erase_cons_head ..

/-- `IsRecursive`, from the empty set. -/
theorem isRecursiveShared_fst (pool : Pool n) (m : Fin n) :
    (pool.isRecursiveShared (n + 1) [] m).1 = pool.isRecursive m :=
  (isRecursiveShared_spec pool (n + 1) [] m).1

/-- A cycle of message fields and map values can be reached. -/
def ReachesCycle (fs : FileSet n) (m : Fin n) : Prop :=
  ∃ c, Relation.ReflTransGen (Edge fs.dependencies) m c ∧
    Relation.TransGen (Edge fs.dependencies) c c

theorem isRecursive_iff (fs : FileSet n) : fs.pool.isRecursive m = true ↔ ReachesCycle fs m := by
  rw [← Bool.not_eq_false, isRecursive_eq_false_iff, grounded_iff, ReachesCycle]
  push Not
  rfl

/-! ## What the classifier does with the answer -/

/-- The reason a node is given for having no type. -/
def refusal : IrNode n → Option String
  | .unsupported _ reason => some reason
  | _ => none

theorem refusal_setNullable (node : IrNode n) : refusal node.setNullable = refusal node := by
  cases node <;> rfl

/-- The node is marked for recursion. -/
def ForRecursion (node : IrNode n) : Prop := ∃ reason ∈ refusal node, SaysRecursive reason

theorem not_forRecursion {node : IrNode n} (h : refusal node = none) : ¬ ForRecursion node := by
  intro ⟨reason, hmem, _⟩
  rw [h] at hmem
  cases hmem

theorem forRecursion_unsupported {reason : String} :
    ForRecursion (makeUnsupported f reason) ↔ SaysRecursive reason := by
  constructor
  · intro ⟨_, hmem, hs⟩
    cases hmem
    exact hs
  · exact fun hs => ⟨reason, rfl, hs⟩

/-- The end of a chain under a message that is not recursive is not marked. -/
theorem not_forRecursion_chain (hm : fs.pool.isRecursive m = false) :
    ¬ ForRecursion (fs.nodeOf f ((fs.chainEnd m).step fs.pool f)) := by
  have hgr := grounded_of_not_recursive hm
  obtain ⟨leaf, hleaf, hrch⟩ := flattenWalk_settles hgr 0
  rw [(FileSet.chainEnd_settles hgr).unique hleaf]
  cases leaf with
  | unsupported => exact mt forRecursion_unsupported.mp (not_saysRecursive (by decide))
  | scalar levels kind => cases levels <;> exact not_forRecursion rfl
  | message depth c =>
    rw [FlattenLeaf.step, not_recursive_of_grounded (hgr.reach (hrch depth c rfl))]
    exact not_forRecursion rfl

/-- One turn of the classifier: a field whose message is not recursive is not marked, if the
field it is replaced by is not. -/
theorem not_forRecursion_step (h : ∀ c, fs.pool.descends f = some c → fs.pool.isRecursive c = false)
    (ih : ∀ w, fs.pool.descends f = some w → ∀ g ∈ (fs.pool w).fields,
      ¬ ForRecursion (fs.classify g)) : ¬ ForRecursion (fs.classify f) := by
  obtain ⟨r, ht, hr⟩ := takes fs.pool f
  cases ht with
  | unsupported reason hwhy =>
    rw [FileSet.classify_step hr]
    intro hrec
    obtain ⟨c, hc, hrec⟩ := hwhy (forRecursion_unsupported.mp hrec)
    rw [h c hc] at hrec
    cases hrec
  | scalar =>
    rw [FileSet.classify_step hr, FileSet.nodeOf]
    split <;> exact not_forRecursion rfl
  | wkt _ _ _ _ hwkt =>
    rw [FileSet.classify_step hr]
    obtain ⟨_, _, rfl⟩ := tryBuildWkt_scalar hwkt
    exact not_forRecursion rfl
  | malformed hent hno =>
    obtain ⟨key, value, hfs, -⟩ := fs.entry hent
    exact absurd hfs (hno key value)
  | scalarMap | map =>
    rw [FileSet.classify_step hr]
    exact not_forRecursion rfl
  | message =>
    rw [FileSet.classify_step hr, Step.message]
    split <;> exact not_forRecursion rfl
  | wrapped hens _ _ hfs =>
    have hinner := ih _ (descends_of_not_entry hens.type hens.entry) _
      (by rw [hfs]; exact List.mem_singleton_self _)
    rw [FileSet.classify_step hr, FileSet.nodeOf]
    split
    · rwa [ForRecursion, refusal_setNullable]
    · exact hinner
  | chain hens =>
    rw [FileSet.classify_chain (grounded_of_not_recursive hens.grounded) hr]
    exact not_forRecursion_chain hens.grounded

/-- Below a message that is not recursive no field is marked. -/
theorem not_forRecursion_of_grounded (h : Grounded fs.dependencies m) :
    ∀ f ∈ (fs.pool m).fields, ¬ ForRecursion (fs.classify f) := by
  induction h with
  | intro m hacc ih =>
    intro f hf
    have hedge : ∀ c, fs.pool.descends f = some c → c ∈ fs.dependencies m := fun c hc =>
      List.mem_filterMap.mpr ⟨f, hf, hc⟩
    exact not_forRecursion_step
      (fun c hc => (isRecursive_eq_false_iff fs).mpr (hacc c (hedge c hc)))
      fun w hw => ih w (hedge w hw)

/-- Nothing but the recursion test decides on the field: it is no member of a oneof, and its
message, or its map's value message, is neither dynamically typed nor a scalar. -/
structure Tested (pool : Pool n) (f : FieldDescriptor n) (m : Fin n) : Prop where
  descends : pool.descends f = some m
  oneof : f.realOneof = none
  dynamic : dynamicWktUnsupportedReason (pool m).fullName = none
  wkt : f.isRepeated = true ∨ pool.isMap f = true ∨ tryBuildWkt f (pool m).fullName = none

theorem recursiveReason_says (pool : Pool n) (m : Fin n) : SaysRecursive (recursiveReason pool m) :=
  ⟨_, List.mem_cons_self, _, rfl⟩

/-- The field of a recursive message is marked. -/
theorem Tested.forRecursion (h : Tested fs.pool f m) (hm : fs.pool.isRecursive m = true) :
    ForRecursion (fs.classify f) := by
  suffices hdone : ∃ reason, SaysRecursive reason ∧
      Applies fs.pool f (.step (.done (makeUnsupported f reason))) by
    obtain ⟨reason, hs, happ⟩ := hdone
    rw [FileSet.classify_step happ]
    exact forRecursion_unsupported.mpr hs
  have hdesc := h.descends
  cases hf : f.messageType? with
  | none =>
    rw [Pool.descends, hf] at hdesc
    cases hdesc
  | some e =>
    have hft := messageType_eq_some.mp hf
    cases hent : (fs.pool e).mapEntry with
    | true =>
      obtain ⟨key, value, hfs, hkey, -⟩ := fs.entry hent
      have hmap : IsMapOf fs.pool f e key value := ⟨h.oneof, hf, hent, hfs, hkey⟩
      rw [hmap.descends] at hdesc
      refine ⟨_, ⟨_, List.mem_cons_of_mem _ List.mem_cons_self, (fs.pool m).fullName, rfl⟩,
        fun k => ?_⟩
      rw [hmap.build, buildMapValue, messageType_eq_some.mp hdesc]
      simp only [h.dynamic, hm]
      rfl
    | false =>
      rw [descends_of_not_entry hf hent] at hdesc
      cases hdesc
      refine ⟨_, recursiveReason_says fs.pool m, fun k => ?_⟩
      rw [buildFieldIr, h.oneof, hft]
      cases hrep : f.isRepeated with
      | true => simp [hent, buildRepeatedMessage, h.dynamic, hm, Rule.run, Step.run]
      | false =>
        have hwkt : tryBuildWkt f (fs.pool m).fullName = none := by
          rcases h.wkt with h | h | h
          · rw [hrep] at h
            cases h
          · rw [Pool.isMap, hf] at h
            exact absurd (h.symm.trans hent) Bool.noConfusion
          · exact h
        simp [hent, hwkt, buildSingularMessage, h.dynamic, hm, Rule.run, Step.run]

/-- **Recursion.** The search with the shared set answers yes exactly if a cycle can be reached,
and a field on which the test decides is marked for recursion exactly then. -/
theorem recursion_exact (fs : FileSet n) :
    (∀ m, (fs.pool.isRecursiveShared (n + 1) [] m).1 = true ↔ ReachesCycle fs m) ∧
    ∀ f m, Tested fs.pool f m → ∃ node, Settles (fun k => buildFieldIr fs.pool k f) node ∧
      (ForRecursion node ↔ ReachesCycle fs m) := by
  refine ⟨fun m => ?_, fun f m h => ⟨_, fs.classify_settles f, ?_⟩⟩
  · rw [isRecursiveShared_fst, isRecursive_iff]
  · rw [← isRecursive_iff]
    refine ⟨fun hmark => ?_, h.forRecursion⟩
    by_contra hm
    rw [Bool.not_eq_true] at hm
    refine not_forRecursion_step ?_ ?_ hmark
    · intro c hc
      obtain rfl := Option.some.inj (h.descends.symm.trans hc)
      exact hm
    · intro w hw
      obtain rfl := Option.some.inj (h.descends.symm.trans hw)
      exact not_forRecursion_of_grounded ((isRecursive_eq_false_iff fs).mp hm)

theorem recursion_exact_self : ∃ node,
    Settles (fun k => buildFieldIr (nestedPair [messageField "next" 0] []).pool k
      (messageField "next" 0)) node ∧
    (ForRecursion node ↔ ReachesCycle (nestedPair [messageField "next" 0] []) 0) :=
  (recursion_exact _).2 _ _
    ⟨rfl, rfl, rfl, .inr (.inr (by simp [nestedPair, tryBuildWkt, wrapperFor]))⟩

/-- `message Outer { oneof choice { Outer next = 1; } }` is recursive, and the field is refused
for its oneof. -/
theorem oneof_before_recursion :
    let next : FieldDescriptor 2 := { messageField "next" 0 with realOneof := some "choice" }
    let fs := nestedPair [next] []
    ReachesCycle fs 0 ∧ ∃ facts reason,
      buildFieldIr fs.pool 1 next = .ok (.unsupported facts reason) ∧ ¬ SaysRecursive reason := by
  intro next fs
  refine ⟨(isRecursive_iff fs).mp (by decide), _, _, rfl, not_saysRecursive (by decide)⟩

end Fletcher.Protoc
