import Fletcher.Protoc.Naming

/-!
# Generation ends

All the walks of a generation end on every set of files, but for one. The walks over fields
start at messages that have passed the recursion test, the recursion over nested types goes
down a tree, and the ordering and the accessor's test carry what they are in the middle of.
The collector of enum headers has no such guard. It starts at every message of the file,
recursive ones too, and goes into nested types *and* into fields marked with the field-level
flatten: where these come back to a message, it never returns.

`generation_finishes_iff` says that this is all there is: a file is generated, or refused by the
checks in front, exactly if it has no such cycle.
-/

namespace Fletcher.Protoc

open Lib Arrow Fletcher.Core List
open FileSet

variable {n : Nat} {fs : FileSet n} {m : Fin n} {file : String} {k : Nat}

/-! ## Walks over fields -/

theorem flattenTarget_messageType {f : FieldDescriptor n}
    (h : f.flattenTarget = some m) : f.messageType? = some m := by
  unfold FieldDescriptor.flattenTarget at h
  split at h
  · rename_i c hc
    split at h
    · rw [hc]
      exact h
    · cases h
  · cases h

theorem walkFields_halts {keep : IrNode n → Bool} (h : Grounded fs.pool.references m) :
    ∀ idPrefix, Halts fun k => walkFields fs.pool keep k idPrefix m := by
  induction h with
  | intro m _ ih =>
    intro idPrefix
    refine .succ (Halts.map (Halts.mapM fun f hf => ?_) List.flatten)
    cases htgt : f.flattenTarget with
    | some inner => exact ih inner (mem_references hf (flattenTarget_messageType htgt)) _
    | none => exact (buildFieldIr_halts fs f).shift.map _

/-- The fields of the second message are inlined into the first. -/
def Inlines (pool : Pool n) (m c : Fin n) : Prop :=
  ∃ f ∈ (pool m).fields, f.flattenTarget = some c

/-- The field is one of the message's class, declared in it or inlined. -/
def HasField (pool : Pool n) (m : Fin n) (f : FieldDescriptor n) : Prop :=
  ∃ c, Relation.ReflTransGen (Inlines pool) m c ∧ f ∈ (pool c).fields ∧ f.flattenTarget = none

/-- The records of a walk come from fields of the message's class. -/
theorem walkFields_source {pool : Pool n} {keep : IrNode n → Bool} : ∀ {k : Nat}
    {idPrefix : String} {m : Fin n} {records : List (FieldRecord n)},
    walkFields pool keep k idPrefix m = .ok records → ∀ r ∈ records,
    HasField pool m r.sourceField
  | 0, _, _, _, h => nomatch h
  | k + 1, idPrefix, m, records, h => by
    obtain ⟨parts, hpts, hflat⟩ := bind_eq_ok_iff.mp h
    cases hflat
    intro r hr
    obtain ⟨part, hmem, hr⟩ := mem_flatten.mp hr
    obtain ⟨f, hf, hpart⟩ := mapM_ok_mem hpts hmem
    split at hpart
    · rename_i inner htgt
      obtain ⟨c, hrch, hc⟩ := walkFields_source hpart r hr
      exact ⟨c, .head ⟨f, hf, htgt⟩ hrch, hc⟩
    · rename_i htgt
      obtain ⟨node, -, hkept⟩ := bind_eq_ok_iff.mp hpart
      cases hkept
      split at hr
      · obtain rfl := mem_singleton.mp hr
        exact ⟨m, .refl, hf, htgt⟩
      · cases hr

/-- What is named for a record of a message's walk is further down than the message. -/
theorem walkFields_named {pool : Pool n} {keep : IrNode n → Bool} {idPrefix : String}
    {d : Fin n} {records : List (FieldRecord n)}
    (h : walkFields pool keep k idPrefix m = .ok records) {r : FieldRecord n} (hr : r ∈ records)
    (hd : named r.node = some d) : Relation.TransGen (Edge pool.references) m d := by
  obtain ⟨c, hrch, hsrc, -⟩ := walkFields_source h r hr
  obtain ⟨-, k', hnode⟩ := walkFields_mem h r hr
  obtain ⟨p, hnms⟩ := names_of_build hnode hd
  obtain ⟨c', hc', hcd⟩ := hnms.reach
  have hmc : Relation.ReflTransGen (Edge pool.references) m c := by
    refine Relation.ReflTransGen.mono ?_ _ _ hrch
    intro a b hab
    obtain ⟨f, hf, htgt⟩ := hab
    exact mem_references hf (flattenTarget_messageType htgt)
  exact Relation.TransGen.trans_left (Relation.TransGen.tail' hmc (mem_references hsrc hc')) hcd

/-! ## Schemas -/

/-- A chain of lists over a scalar, or over a message that has a schema. -/
theorem emitNodeType_chain_halts {nested : Nat → Fin n → Gen Schema} : ∀ node : IrNode n,
    ((∃ facts kind, node.listLeaf = .scalar facts kind) ∨
      ∃ facts d fields, node.listLeaf = .struct facts d fields ∧ Halts (nested · d)) →
    Halts fun k => emitNodeType (nested k) node
  | .scalar _ kind, _ => .ok (emitScalarType kind)
  | .list _ e, h => (emitNodeType_chain_halts e h).map _
  | .struct _ _ _, h => by
    rcases h with ⟨_, _, h⟩ | ⟨_, _, _, h, hs⟩
    · cases h
    · cases h
      exact hs.map DataType.struct
  | .map _ _ _, h => by
    rcases h with ⟨_, _, h⟩ | ⟨_, _, _, h, _⟩ <;> cases h
  | .unsupported _ _, h => by
    rcases h with ⟨_, _, h⟩ | ⟨_, _, _, h, _⟩ <;> cases h

theorem emitNodeType_halts {nested : Nat → Fin n → Gen Schema} {node : IrNode n}
    (hkeep : isSchemaRepresentable node = true)
    (h : ∀ d, named node = some d → Halts (nested · d)) :
    Halts fun k => emitNodeType (nested k) node := by
  cases node with
  | scalar facts kind => exact .ok (emitScalarType kind)
  | struct facts m fields => exact (h m rfl).map DataType.struct
  | unsupported facts reason => cases hkeep
  | list facts e =>
    refine emitNodeType_chain_halts (.list facts e) ?_
    rw [named_list] at h
    show (∃ facts' kind, e.listLeaf = .scalar facts' kind) ∨ ∃ facts' d fields,
      e.listLeaf = .struct facts' d fields ∧ Halts (nested · d)
    cases hleaf : e.listLeaf with
    | scalar facts' kind => exact .inl ⟨facts', kind, rfl⟩
    | struct facts' d fields =>
      rw [hleaf] at h
      exact .inr ⟨facts', d, fields, rfl, h d rfl⟩
    | _ =>
      cases e with
      | list facts' e' => simp [isSchemaRepresentable, hleaf] at hkeep
      | _ => simp [isSchemaRepresentable, IrNode.listLeaf] at hkeep hleaf
  | map facts key value =>
    cases key with
    | scalar facts' kind =>
      cases value with
      | scalar facts'' vkind => exact .ok _
      | struct facts'' d fields =>
        exact .congr (fun k => by simp only [emitNodeType]; cases nested k d <;> rfl)
          ((h d rfl).map fun fields => DataType.map ⟨"key", emitScalarType kind, false⟩
            ⟨"value", .struct fields, true⟩ false)
      | _ => cases hkeep
    | _ => cases hkeep

theorem messageSchema_halts (h : Grounded fs.pool.references m) :
    Halts fun k => messageSchema fs.pool k m := by
  refine h.induction (P := fun m => Halts (messageSchema fs.pool · m)) fun m hm ih => .succ ?_
  simp only [messageSchema]
  refine (walkFields_halts hm "").shift.bind fun records hrecs => ?_
  obtain ⟨k, hk⟩ := hrecs.returns
  refine Halts.mapM fun r hr => ?_
  exact (emitNodeType_halts (walkFields_mem hk r hr).1
    fun d hd => ih d (walkFields_named hk hr hd)).map _

/-! ## Includes -/

/-- Nested types are a tree. -/
theorem grounded_nestedTypes (fs : FileSet n) (m : Fin n) : Grounded fs.nestedTypes m := by
  induction m using (Finite.to_wellFoundedGT (α := Fin n)).wf.induction with
  | _ m ih =>
    refine Acc.intro m fun c hc => ih c ?_
    have hcon := (mem_filter.mp hc).2
    exact fs.nested_lt (of_decide_eq_true hcon)

theorem collectIncludesFrom_halts (m : Fin n) :
    ∀ heade, Halts fun k => fs.collectIncludesFrom file k heade m := by
  have h := grounded_nestedTypes fs m
  induction h with
  | intro m _ ih =>
    refine fun heade => .succ ?_
    simp only [collectIncludesFrom]
    refine (Halts.foldlM (fun f _ heade => ?_) heade).bind fun heade' _ => Halts.foldlM ih heade'
    exact (buildFieldIr_halts fs f).map _

theorem collectIncludes_halts : Halts fun k => fs.collectIncludes k file :=
  Halts.foldlM (fun m _ => collectIncludesFrom_halts m) []

/-- Where the collector of enum headers goes from a message: into the fields it takes for
flattened, and into the nested types. -/
def FileSet.inlines (fs : FileSet n) (m : Fin n) : List (Fin n) :=
  (fs.pool m).fields.filterMap FieldDescriptor.flattenTarget ++ fs.nestedTypes m

theorem collectEnumIncludesFrom_halts (h : Grounded fs.inlines m) :
    ∀ heade, Halts fun k => fs.collectEnumIncludesFrom file k heade m := by
  induction h with
  | intro m _ ih =>
    refine fun heade => .succ ?_
    simp only [collectEnumIncludesFrom]
    refine (Halts.foldlM (fun f hf heade => ?_) heade).bind fun heade' _ =>
      Halts.foldlM (fun c hc => ih c (mem_append_right _ hc)) heade'
    cases htgt : f.flattenTarget with
    | some inner => exact ih inner (mem_append_left _ (mem_filterMap.mpr ⟨f, hf, htgt⟩)) heade
    | none => exact .ok _

/-- A loop that returns has run each of its steps. -/
theorem foldlM_ok_mem {α σ : Type} {f : σ → α → Gen σ} : ∀ {as : List α} {s s' : σ},
    as.foldlM f s = .ok s' → ∀ a ∈ as, ∃ t t', f t a = .ok t'
  | [], _, _, _, a, ha => nomatch ha
  | b :: as, s, s', h, a, ha => by
    rw [foldlM_cons] at h
    obtain ⟨s₁, h₁, h⟩ := bind_eq_ok_iff.mp h
    rcases mem_cons.mp ha with rfl | ha
    · exact ⟨s, s₁, h₁⟩
    · exact foldlM_ok_mem h a ha

/-- The collector of enum headers returns only from messages below which it finds no cycle. -/
theorem grounded_of_collectEnumIncludesFrom {heade heade' : List String}
    (h : fs.collectEnumIncludesFrom file k heade m = .ok heade') :
    Grounded fs.inlines m := by
  refine grounded_of_fuel (k := k)
    (P := fun k m => ∃ t t', fs.collectEnumIncludesFrom file k t m = .ok t') ?_ ?_ ⟨_, _, h⟩
  · rintro m ⟨t, t', h⟩
    cases h
  · rintro k m ⟨t, t', h⟩ c hc
    rw [collectEnumIncludesFrom] at h
    obtain ⟨t₁, h₁, h⟩ := bind_eq_ok_iff.mp h
    rcases mem_append.mp hc with hc | hc
    · obtain ⟨f, hf, htgt⟩ := mem_filterMap.mp hc
      obtain ⟨s, s', hs⟩ := foldlM_ok_mem h₁ f hf
      rw [htgt] at hs
      exact ⟨s, s', hs⟩
    · exact foldlM_ok_mem h c hc

/-! ## The other walks of a file -/

theorem orderedMessages_halts : Halts fun k => fs.orderedMessages k file :=
  Dfs.listFrom_halts _

theorem generatedMessages_halts : Halts fun k => fs.generatedMessages k file :=
  orderedMessages_halts.map _

theorem not_recursive_of_generated {messages : List (Fin n)}
    (h : Settles (fun k => fs.generatedMessages k file) messages) (hm : m ∈ messages) :
    fs.pool.isRecursive m = false := by
  obtain ⟨k, hk⟩ := h.returns
  obtain ⟨order, -, hfilt⟩ := bind_eq_ok_iff.mp hk
  cases hfilt
  have hgen := (mem_filter.mp hm).2
  rw [isGenerated, Bool.and_eq_true, Bool.not_eq_true', Bool.not_eq_true'] at hgen
  exact hgen.1

theorem firstFinding_halts (find : IrNode n → Option String) :
    Halts fun k => fs.firstFinding find k file := by
  refine generatedMessages_halts.bind fun messages _ => ?_
  refine Halts.firstM fun m _ => Halts.firstM fun f _ => ?_
  exact (buildFieldIr_halts fs f).map find

theorem firstFinding_below (find : IrNode n → Option String) (k : Nat) :
    Below (fs.firstFinding find k file) (fs.firstFinding find (k + 1) file) := by
  refine Below.bind (Below.bind (Dfs.listFrom_below k _) fun _ => .refl _) fun messages => ?_
  refine Below.firstM (fun m => Below.firstM (fun f => ?_) _) messages
  exact Below.bind (buildFieldIr_below k f) fun _ => .refl _

theorem validateBackendsSupportFields_below (opts : PluginOptions) (k : Nat) :
    Below (fs.validateBackendsSupportFields opts k file)
      (fs.validateBackendsSupportFields opts (k + 1) file) := by
  unfold validateBackendsSupportFields
  split
  · exact Below.bind (firstFinding_below _ k) fun _ => .refl _
  · exact .refl _

theorem validateBackendsSupportFields_halts (opts : PluginOptions) :
    Halts fun k => fs.validateBackendsSupportFields opts k file := by
  unfold validateBackendsSupportFields
  cases opts.accessor || opts.rust with
  | true => exact (firstFinding_halts findScalarLeafNestedList).map _
  | false => exact .ok none

theorem emit_halts {walk : Nat → Fin n → Gen (List (FieldRecord n))} {messages : List (Fin n)}
    (h : ∀ m ∈ messages, Halts (walk · m)) : Halts fun k => emit (walk k) messages :=
  Halts.mapM fun m hm => (h m hm).map (Emitted.mk m)

theorem gatherFields_halts (h : fs.pool.isRecursive m = false) :
    Halts fun k => gatherFields fs.pool k m :=
  walkFields_halts (grounded_of_not_recursive h) ""

theorem buildFlattenedFieldList_halts (h : fs.pool.isRecursive m = false) :
    Halts fun k => buildFlattenedFieldList fs.pool k m :=
  walkFields_halts (grounded_of_not_recursive h) ""

theorem optionally_halts {α : Type} {x : Nat → Gen α} (wanted : Bool) (h : Halts x) :
    Halts fun k => optionally wanted (x k) := by
  cases wanted with
  | true => exact h.map some
  | false => exact .ok none

/-- The fields of the classes of a file's messages. -/
theorem classes_halt {messages : List (Fin n)}
    (h : Settles (fun k => fs.generatedMessages k file) messages) :
    Halts fun k => emit (gatherFields fs.pool k) messages :=
  emit_halts fun _ hm => gatherFields_halts (not_recursive_of_generated h hm)

theorem generateViewFile_halts : Halts fun k => fs.generateViewFile k file := by
  refine generatedMessages_halts.bind fun messages hmsgs => ?_
  cases messages.isEmpty with
  | true => exact .ok none
  | false => exact collectIncludes_halts.bind fun includes _ => (classes_halt hmsgs).map _

theorem emitAccessorHeader_halts : Halts fun k => fs.emitAccessorHeader k file := by
  refine collectIncludes_halts.bind fun includes _ => ?_
  exact generatedMessages_halts.bind fun messages hmsgs => (classes_halt hmsgs).map _

theorem generateTypeScriptFile_halts : Halts fun k => fs.generateTypeScriptFile k file := by
  refine orderedMessages_halts.bind fun messages hmsgs => emit_halts fun m hm => ?_
  refine buildFlattenedFieldList_halts ?_
  obtain ⟨k, hk⟩ := hmsgs.returns
  have hver := (((Dfs.listFrom_spec hk).2.1 m).mp hm).1
  unfold FileSet.verdict at hver
  split at hver
  · cases hver
  · split at hver
    · cases hver
    · split at hver
      · cases hver
      · rename_i hrec
        exact Bool.eq_false_iff.mpr hrec

theorem rustMappingSupported_halts {inner : Nat → Fin n → Gen Bool} {mapping : FieldMapping n}
    (h : ∀ d, target mapping = some d → Halts (inner · d)) :
    Halts fun k => rustMappingSupported (inner k) mapping := by
  cases mapping with
  | scalar nullable kind => exact .ok _
  | repeatedScalar kind => exact .ok _
  | struct nullable m => exact h m rfl
  | repeatedStruct m => exact h m rfl
  | nestedList nullable depth leaf =>
    unfold rustMappingSupported
    by_cases hdepth : depth ≠ 2 ∧ depth ≠ 3
    · exact .congr (fun k => if_pos hdepth) (.ok false)
    · refine .congr (fun k => if_neg hdepth) ?_
      cases leaf with
      | scalar kind => exact .ok false
      | struct m => exact h m rfl
  | map key value =>
    cases value with
    | scalar kind => exact .ok _
    | struct m => exact h m rfl

theorem rustFieldsSupported_halts {inner : Nat → Fin n → Gen Bool} {fields : List (FieldRecord n)}
    (h : ∀ r ∈ fields, ∀ d, named r.node = some d → Halts (inner · d)) :
    Halts fun k => rustFieldsSupported (inner k) fields := by
  refine Halts.map (Halts.firstM fun r hr => ?_) Option.isNone
  cases hmap : projectIrToFieldMapping r.node with
  | none => exact .ok none
  | some mapping =>
    refine (rustMappingSupported_halts fun d hd => h r hr d ?_).map _
    rw [named, hmap]
    exact hd

/-- The test of the Rust accessor ends: it refuses recursive messages, and from the others it
only goes down. -/
theorem rustMessageAccessorSupported_halts (m : Fin n) :
    ∀ visited, Halts fun k => fs.rustMessageAccessorSupported k visited m := by
  by_cases hrec : fs.pool.isRecursive m = true
  · refine fun visited => .succ (.congr (fun k => ?_) (.ok false))
    rw [rustMessageAccessorSupported, if_pos hrec]
  · refine (grounded_of_not_recursive (Bool.eq_false_iff.mpr hrec)).induction
      (P := fun m => ∀ visited, Halts (fs.rustMessageAccessorSupported · visited m))
      fun m hm ih visited => .succ ?_
    have hrec := not_recursive_of_grounded hm
    by_cases hvis : m ∈ visited
    · simp only [rustMessageAccessorSupported, hrec, hvis, if_true]
      exact .ok true
    · simp only [rustMessageAccessorSupported, hrec, hvis, if_false]
      refine (gatherFields_halts hrec).bind fun fields hfs => ?_
      obtain ⟨k, hk⟩ := hfs.returns
      exact rustFieldsSupported_halts fun r hr d hd =>
        ih d (walkFields_named hk hr hd) (m :: visited)

theorem rustAccessors_halts : Halts fun k => fs.rustAccessors k file := by
  refine generatedMessages_halts.bind fun messages hmsgs => Halts.mapM fun m hm => ?_
  refine (gatherFields_halts (not_recursive_of_generated hmsgs hm)).bind fun fields _ => ?_
  exact rustFieldsSupported_halts fun _ _ d _ => rustMessageAccessorSupported_halts d []

theorem ipcSchemas_halts : Halts fun k => fs.ipcSchemas k file :=
  generatedMessages_halts.bind fun _ hmsgs => Halts.mapM fun _ hm =>
    messageSchema_halts (grounded_of_not_recursive (not_recursive_of_generated hmsgs hm))

/-! ## The whole generation -/

/-- No cycle of nested types and flattened fields can be reached from the file's messages. -/
def FileSet.InlineAcyclic (fs : FileSet n) (file : String) : Prop :=
  ∀ m ∈ fs.messageTypes file, ∀ c, Relation.ReflTransGen (Edge fs.inlines) m c →
    ¬ Relation.TransGen (Edge fs.inlines) c c

/-- One of the checks in front of the emission refuses the file or the parameter. -/
def FileSet.Refused (fs : FileSet n) (parameter : Except String PluginOptions) (file : String) :
    Prop :=
  (∃ k error, fs.validateNoUnsupportedIr k file = .ok (some error)) ∨
  (∃ error, parameter = .error error) ∨
  ∃ opts k error, parameter = .ok opts ∧
    fs.validateBackendsSupportFields opts k file = .ok (some error)

theorem collectEnumIncludes_halts (h : fs.InlineAcyclic file) (heade : List String) :
    Halts fun k => fs.collectEnumIncludes k file heade :=
  Halts.foldlM (fun m hm => collectEnumIncludesFrom_halts (grounded_iff.mpr (h m hm))) heade

theorem generateFile_halts (h : fs.InlineAcyclic file) (schemaOnly : Bool) :
    Halts fun k => fs.generateFile k schemaOnly file := by
  refine collectIncludes_halts.bind fun includes _ => ?_
  refine (collectEnumIncludes_halts h includes).bind fun includes' _ => ?_
  refine generatedMessages_halts.bind fun messages hmsgs => ?_
  refine (classes_halt hmsgs).bind fun classes _ => Halts.map ?_ _
  exact emit_halts fun m hm => buildFlattenedFieldList_halts (not_recursive_of_generated hmsgs hm)

theorem emitAll_halts (h : fs.InlineAcyclic file) (opts : PluginOptions) :
    Halts fun k => fs.emitAll opts k file := by
  refine (generateFile_halts h opts.schemaOnly).bind fun header _ => ?_
  refine (optionally_halts _ generateViewFile_halts).bind fun views _ => ?_
  refine (optionally_halts _ generateTypeScriptFile_halts).bind fun ts _ => ?_
  refine (optionally_halts _ ipcSchemas_halts).bind fun ipc _ => ?_
  refine (optionally_halts _ emitAccessorHeader_halts).bind fun accessor _ => ?_
  exact (optionally_halts _ rustAccessors_halts).map _

/-- An emission that returns has met no cycle. -/
theorem inlineAcyclic_of_emitAll {opts : PluginOptions}
    {generated : Generated n} (h : fs.emitAll opts k file = .ok generated) :
    fs.InlineAcyclic file := by
  obtain ⟨header, hhdr, -⟩ := bind_eq_ok_iff.mp h
  obtain ⟨includes, -, hrest⟩ := bind_eq_ok_iff.mp hhdr
  obtain ⟨includes', hinc', -⟩ := bind_eq_ok_iff.mp hrest
  intro m hm
  obtain ⟨heade, heade', hfrom⟩ := foldlM_ok_mem hinc' m hm
  exact grounded_iff.mp (grounded_of_collectEnumIncludesFrom hfrom)

/-- A generation that returns was refused, or has met no cycle. -/
theorem generate_returns {parameter : Except String PluginOptions}
    {result : Except String (Generated n)} (h : fs.generate parameter k file = .ok result) :
    fs.Refused parameter file ∨ fs.InlineAcyclic file := by
  obtain ⟨invalid, hinv, h⟩ := bind_eq_ok_iff.mp h
  cases invalid with
  | some error => exact .inl (.inl ⟨k, error, hinv⟩)
  | none =>
    cases parameter with
    | error error => exact .inl (.inr (.inl ⟨error, rfl⟩))
    | ok opts =>
      obtain ⟨unsupported, huns, h⟩ := bind_eq_ok_iff.mp h
      cases unsupported with
      | some error => exact .inl (.inr (.inr ⟨opts, k, error, rfl, huns⟩))
      | none =>
        obtain ⟨generated, hgen, -⟩ := bind_eq_ok_iff.mp h
        exact .inr (inlineAcyclic_of_emitAll hgen)

theorem exists_generate {parameter : Except String PluginOptions}
    (h : fs.Refused parameter file ∨ fs.InlineAcyclic file) :
    Halts fun k => fs.generate parameter k file := by
  refine (firstFinding_halts findUnsupportedIr).bind fun invalid hinv => ?_
  cases invalid with
  | some error => exact .ok _
  | none =>
    cases parameter with
    | error error => exact .ok _
    | ok opts =>
      refine (validateBackendsSupportFields_halts opts).bind fun unsupported huns => ?_
      cases unsupported with
      | some error => exact .ok _
      | none =>
        -- neither check refuses, so there is no cycle
        refine (emitAll_halts ?_ opts).map _
        rcases h with (⟨k, error, hk⟩ | ⟨error, hk⟩ | ⟨opts', k, error, hopts, hk⟩) | h
        · cases hinv.unique (settles_of_ok (firstFinding_below findUnsupportedIr) hk)
        · cases hk
        · cases hopts
          cases huns.unique (settles_of_ok (validateBackendsSupportFields_below opts) hk)
        · exact h

/-- Everything a generation of the file runs comes to an end: the recursion test, the nesting
depth, and the generation itself. -/
structure FileSet.Finishes (fs : FileSet n) (parameter : Except String PluginOptions)
    (file : String) : Prop where
  recursionTest : ∀ m, ∃ k, recursionTest fs.pool k [] m = .ok (fs.pool.isRecursive m)
  nestingDepth : ∀ m, ∃ k depth, nestingDepthImpl fs.pool k [] m = .ok depth
  generate : ∃ k result, fs.generate parameter k file = .ok result

/-- **Generation ends**, with files or with an error, exactly if a check refuses the file or the
parameter, or no cycle of nested types and flattened fields can be reached from the file's
messages. -/
theorem generation_finishes_iff (fs : FileSet n) (parameter : Except String PluginOptions)
    (file : String) :
    fs.Finishes parameter file ↔ fs.Refused parameter file ∨ fs.InlineAcyclic file := by
  constructor
  · intro h
    obtain ⟨k, result, h⟩ := h.generate
    exact generate_returns h
  · intro h
    refine ⟨fun m => (recursionTest_settles fs.pool m).returns,
      fun m => (nestingDepth_halts fs.pool m).returns, (exists_generate h).returns⟩

/-! ## Two messages of a file -/

def intField (name : String) : FieldDescriptor n :=
  ⟨name, name, 1, .int32, .optional, false, false, none, false⟩

def messageField (name : String) (m : Fin n) : FieldDescriptor n :=
  ⟨name, name, 1, .message m, .optional, false, false, none, false⟩

/-- `message Outer { message Inner { .. } .. }` in a file of its own, with these fields. -/
def nestedPair (outer inner : List (FieldDescriptor 2)) : FileSet 2 where
  pool
    | 0 => ⟨"Outer", outer, false, false⟩
    | 1 => ⟨"Outer.Inner", inner, false, false⟩
  file _ := "pair.proto"
  containingType
    | 0 => none
    | 1 => some ⟨0, Nat.zero_lt_two⟩
  enumType _ := ⟨"pair.proto", none⟩
  methods _ := []
  nested_lt := by decide
  nested_file := fun _ => rfl
  entry := by
    intro m h
    match m with
    | 0 => cases h
    | 1 => cases h
  owner_file := fun h => nomatch h

/-- `message Outer { message Inner { Outer outer = 1 [(fletcher.flatten) = true]; } }`: neither
message is recursive. -/
def flattenedPair : FileSet 2 :=
  nestedPair [] [{ messageField "outer" ⟨0, Nat.zero_lt_two⟩ with flatten := true }]

/-- The generation of the nested pair never returns. -/
theorem flattenedPair_never_generated : (∀ m, flattenedPair.pool.isRecursive m = false) ∧
    ∀ k result, flattenedPair.generate (.ok {}) k "pair.proto" ≠ .ok result := by
  refine ⟨by decide, fun k result h => ?_⟩
  have hvalid : flattenedPair.validateNoUnsupportedIr 4 "pair.proto" = .ok none := by rfl
  rcases generate_returns h with (⟨k, error, hk⟩ | ⟨error, hk⟩ | ⟨opts, k, error, hopts, hk⟩) | h
  · have := eq_of_fuel (firstFinding_below findUnsupportedIr) hk hvalid
    cases this
  · cases hk
  · cases hopts
    cases hk
  · have hnested : Edge flattenedPair.inlines 0 1 := by
      show (1 : Fin 2) ∈ flattenedPair.inlines 0
      decide
    have hflattened : Edge flattenedPair.inlines 1 0 := by
      show (0 : Fin 2) ∈ flattenedPair.inlines 1
      decide
    exact h 0 (by decide) 0 .refl (.head hnested (.single hflattened))

end Fletcher.Protoc
