import Fletcher.Protoc.Order

/-!
# The classes that are named

A generated class writes the names of other classes: of its fields' messages, and of the
messages that own its enums. So does a schema function, which calls those of its fields. The
classifier chooses the names, and the emit loops, run for the file that defines the message,
decide whether there is such a class. They skip map entries, flatten wrappers and recursive
messages.

The classifier avoids recursive messages on every path. It avoids wrappers on every path but
one, the value of a map, and entries on every path but one, the end of a chain of wrappers. A
message that is found by neither file's ordering, because it is nested in a recursive one, can
be named on any of them.
-/

namespace Fletcher.Protoc

open Lib Arrow Fletcher.Core List
open FileSet

variable {n : Nat} {d m : Fin n} {f : FieldDescriptor n}

namespace FileSet

variable (fs : FileSet n)

/-- `Generate` succeeds on the file. -/
def Generates (opts : PluginOptions) (file : String) : Prop :=
  ∃ k g, fs.generate (.ok opts) k file = .ok (.ok g)

/-- One of the messages is `d`. -/
def DefinedIn (emitted : List (Emitted n)) (d : Fin n) : Prop :=
  ∃ e ∈ emitted, e.message = d

/-- What is generated has a schema function of `d`, and every class that the options ask for. -/
structure Defines (opts : PluginOptions) (g : Generated n) (d : Fin n) : Prop where
  schema : DefinedIn g.header.schemas d
  row : opts.schemaOnly = false → DefinedIn g.header.classes d
  view : opts.schemaOnly = false → ∃ includes views, g.views = some (includes, views) ∧
    DefinedIn views d
  accessor : opts.accessor = true → ∃ includes accessors,
    g.accessor = some (includes, accessors) ∧ DefinedIn accessors d

/-- Generating the file that defines the message succeeds, and emits its schema function and its
classes. -/
def Emits (opts : PluginOptions) (d : Fin n) : Prop :=
  ∃ k g, fs.generate (.ok opts) k (fs.file d) = .ok (.ok g) ∧ Defines opts g d

/-- A record of one of the messages names `d` as the owner of its enum. -/
def OwnerIn (emitted : List (Emitted n)) (d : Fin n) : Prop :=
  ∃ e ∈ emitted, ∃ r ∈ e.fields, fs.enumOwner r.sourceField = some d

/-- A message that a class is emitted for, by its descriptors. -/
structure HasClass (d : Fin n) : Prop where
  entry : (fs.pool d).mapEntry = false
  grounded : fs.pool.isRecursive d = false
  wrapper : fs.pool.isFlattenedWrapper d = false
  found : fs.Found d

/-- The fields of the file's classes avoid the two paths, and lead to messages that are found in
files that are generated too. -/
structure NoMissingClass (opts : PluginOptions) (file : String) : Prop where
  /-- No class has a map with a wrapper for values. -/
  mapValues : ∀ m f v, fs.HasClass m → fs.file m = file → HasField fs.pool m f →
    Names fs.pool .mapValue f v → fs.pool.isFlattenedWrapper v = false
  /-- No class has a list of wrappers that end in a map. -/
  chains : ∀ m f d, fs.HasClass m → fs.file m = file → HasField fs.pool m f →
    Names fs.pool .chain f d → (fs.pool d).mapEntry = false
  found : ∀ m f p d, fs.HasClass m → fs.file m = file → HasField fs.pool m f →
    Names fs.pool p f d → fs.Found d ∧ fs.Generates opts (fs.file d)
  owners : opts.schemaOnly = false → ∀ m f o, fs.HasClass m → fs.file m = file →
    HasField fs.pool m f → f.realOneof = none → fs.enumOwner f = some o →
      fs.Found o ∧ fs.Generates opts (fs.file o)

end FileSet

variable {fs : FileSet n} {messages : List (Fin n)} {emitted : List (Emitted n)}

/-! ## What is emitted -/

theorem mem_generatedMessages {k : Nat} {file : String}
    (h : fs.generatedMessages k file = .ok messages) :
    m ∈ messages ↔ fs.HasClass m ∧ fs.file m = file := by
  obtain ⟨_, hord, hok⟩ := bind_eq_ok_iff.mp h
  cases hok
  rw [mem_filter, (Dfs.listFrom_spec hord).2.1, verdict_eq_list, isGenerated,
    Bool.and_eq_true, Bool.not_eq_true', Bool.not_eq_true']
  constructor
  · intro hm
    obtain ⟨⟨⟨rfl, hent, hrec⟩, hvis⟩, -, hwrp⟩ := hm
    exact ⟨⟨hent, hrec, hwrp, hvis⟩, rfl⟩
  · intro hm
    obtain ⟨hcls, rfl⟩ := hm
    exact ⟨⟨⟨rfl, hcls.entry, hcls.grounded⟩, hcls.found⟩, hcls.grounded, hcls.wrapper⟩

theorem emit_mem {walk : Fin n → Gen (List (FieldRecord n))} (h : emit walk messages = .ok emitted)
    {e : Emitted n} (he : e ∈ emitted) : e.message ∈ messages ∧ walk e.message = .ok e.fields := by
  obtain ⟨m, hm, hwalk⟩ := mapM_ok_mem h he
  obtain ⟨fields, hfs, hok⟩ := bind_eq_ok_iff.mp hwalk
  cases hok
  exact ⟨hm, hfs⟩

theorem emit_of_mem {walk : Fin n → Gen (List (FieldRecord n))}
    (h : emit walk messages = .ok emitted)
    (hm : m ∈ messages) : ∃ e ∈ emitted, e.message = m ∧ walk m = .ok e.fields := by
  obtain ⟨i, hi⟩ := mem_iff_getElem?.mp hm
  obtain ⟨e, he, hwalk⟩ := forall₂_getElem?_left (mapM_eq_ok_iff.mp h) hi
  obtain ⟨fields, hfs, hok⟩ := bind_eq_ok_iff.mp hwalk
  cases hok
  exact ⟨_, mem_of_getElem? he, rfl, hfs⟩

/-- The messages of a successful generation, and what its parts are made of. -/
structure Parts (fs : FileSet n) (opts : PluginOptions) (k : Nat) (file : String)
    (g : Generated n) (messages : List (Fin n)) (classes : List (Emitted n)) : Prop where
  listed : fs.generatedMessages k file = .ok messages
  gathered : emit (gatherFields fs.pool k) messages = .ok classes
  schemas : emit (buildFlattenedFieldList fs.pool k) messages = .ok g.header.schemas
  header : g.header.classes = if opts.schemaOnly then [] else classes
  topics : ∀ d ∈ g.header.topics, d ∈ messages
  views : ∃ includes, g.views =
    if opts.schemaOnly || messages.isEmpty then none else some (includes, classes)
  accessor : ∃ includes, g.accessor = if opts.accessor then some (includes, classes) else none

theorem optionally_eq_ok {α : Type} {wanted : Bool} {x : Gen α} {result : Option α}
    (h : optionally wanted x = .ok result) :
    wanted = false ∧ result = none ∨ wanted = true ∧ ∃ a, x = .ok a ∧ result = some a := by
  cases wanted with
  | false =>
    cases h
    exact .inl ⟨rfl, rfl⟩
  | true =>
    obtain ⟨b, hb, hok⟩ := bind_eq_ok_iff.mp h
    cases hok
    exact .inr ⟨rfl, b, hb, rfl⟩

theorem validated_topics {methods : List (MethodDescriptor n)}
    (h : d ∈ (methods.filter fun m => (fs.validateServiceMethod m messages).isNone).map
      (·.inputType)) : d ∈ messages := by
  obtain ⟨_, hmet, rfl⟩ := mem_map.mp h
  have hnone := Option.isNone_iff_eq_none.mp (mem_filter.mp hmet).2
  unfold validateServiceMethod at hnone
  split at hnone
  · cases hnone
  · split at hnone
    · cases hnone
    · split at hnone
      · cases hnone
      · split at hnone
        · assumption
        · cases hnone

theorem generate_parts {opts : PluginOptions} {k : Nat} {file : String} {g : Generated n}
    (h : fs.generate (.ok opts) k file = .ok (.ok g)) :
    ∃ messages classes, Parts fs opts k file g messages classes := by
  obtain ⟨invalid, -, h⟩ := bind_eq_ok_iff.mp h
  cases invalid with
  | some error => cases h
  | none =>
    obtain ⟨unsupported, -, h⟩ := bind_eq_ok_iff.mp h
    cases unsupported with
    | some error => cases h
    | none =>
      obtain ⟨_, hemit, hok⟩ := bind_eq_ok_iff.mp h
      obtain rfl := Except.ok.inj (Except.ok.inj hok)
      obtain ⟨_, hhdr, h⟩ := bind_eq_ok_iff.mp hemit
      obtain ⟨views, hvws, h⟩ := bind_eq_ok_iff.mp h
      obtain ⟨_, -, h⟩ := bind_eq_ok_iff.mp h
      obtain ⟨_, -, h⟩ := bind_eq_ok_iff.mp h
      obtain ⟨_, hacc, h⟩ := bind_eq_ok_iff.mp h
      obtain ⟨_, -, hok⟩ := bind_eq_ok_iff.mp h
      cases hok
      obtain ⟨_, -, h⟩ := bind_eq_ok_iff.mp hhdr
      obtain ⟨_, -, h⟩ := bind_eq_ok_iff.mp h
      obtain ⟨messages, hmsgs, h⟩ := bind_eq_ok_iff.mp h
      obtain ⟨classes, hclss, h⟩ := bind_eq_ok_iff.mp h
      obtain ⟨_, hschs, hok⟩ := bind_eq_ok_iff.mp h
      cases hok
      -- the views and the accessors are emitted from the same messages by the same walk
      have hsame : ∀ {messages' classes' : _}, fs.generatedMessages k file = .ok messages' →
          emit (gatherFields fs.pool k) messages' = .ok classes' → classes' = classes := by
        intro messages' classes' hm hc
        rw [hmsgs] at hm
        cases hm
        rw [hclss] at hc
        exact (Except.ok.inj hc).symm
      refine ⟨messages, classes, hmsgs, hclss, hschs, rfl, ?_, ?_, ?_⟩
      · intro d hd
        dsimp only at hd
        split at hd
        · cases hd
        · exact validated_topics hd
      · rcases optionally_eq_ok hvws with ⟨hschema, rfl⟩ | ⟨hschema, _, hview, rfl⟩
        · rw [Bool.not_eq_eq_eq_not, Bool.not_false] at hschema
          exact ⟨[], by rw [hschema]; rfl⟩
        · rw [Bool.not_eq_true'] at hschema
          rw [hschema]
          obtain ⟨_, hmsgs', h⟩ := bind_eq_ok_iff.mp hview
          have hmessages := Except.ok.inj (hmsgs.symm.trans hmsgs')
          subst hmessages
          split at h
          · next hempty =>
            cases h
            exact ⟨[], by rw [hempty]; rfl⟩
          · next hsome =>
            obtain ⟨includes, -, h⟩ := bind_eq_ok_iff.mp h
            obtain ⟨_, hvs, hok⟩ := bind_eq_ok_iff.mp h
            cases hok
            rw [hsame hmsgs hvs]
            exact ⟨includes, by rw [Bool.eq_false_iff.mpr hsome]; rfl⟩
      · rcases optionally_eq_ok hacc with ⟨haccessor, rfl⟩ | ⟨haccessor, _, hheader, rfl⟩
        · exact ⟨[], by rw [haccessor]; rfl⟩
        · obtain ⟨includes, -, h⟩ := bind_eq_ok_iff.mp hheader
          obtain ⟨_, hmsgs', h⟩ := bind_eq_ok_iff.mp h
          obtain ⟨_, has, hok⟩ := bind_eq_ok_iff.mp h
          cases hok
          rw [hsame hmsgs' has]
          exact ⟨includes, by rw [haccessor]; rfl⟩

theorem definedIn_of_mem {walk : Fin n → Gen (List (FieldRecord n))}
    (h : emit walk messages = .ok emitted) (hd : d ∈ messages) :
    DefinedIn emitted d := by
  obtain ⟨e, he, hmessage, -⟩ := emit_of_mem h hd
  exact ⟨e, he, hmessage⟩

/-- Whatever is generated for a message's file defines the message, if it has a class. -/
theorem Parts.defines {opts : PluginOptions} {k : Nat} {g : Generated n}
    {classes : List (Emitted n)} (h : Parts fs opts k (fs.file d) g messages classes)
    (hd : fs.HasClass d) : Defines opts g d := by
  have hmem : d ∈ messages := (mem_generatedMessages h.listed).mpr ⟨hd, rfl⟩
  have hclass : DefinedIn classes d := definedIn_of_mem h.gathered hmem
  refine ⟨definedIn_of_mem h.schemas hmem, ?_, ?_, ?_⟩
  · intro hschema
    rw [h.header, hschema]
    exact hclass
  · intro hschema
    obtain ⟨includes, hviews⟩ := h.views
    have hsome : messages.isEmpty = false := isEmpty_eq_false_iff.mpr (ne_nil_of_mem hmem)
    rw [hschema, hsome] at hviews
    exact ⟨includes, classes, hviews, hclass⟩
  · intro haccessor
    obtain ⟨includes, haccessors⟩ := h.accessor
    rw [haccessor] at haccessors
    exact ⟨includes, classes, haccessors, hclass⟩

theorem emits_iff {opts : PluginOptions} :
    fs.Emits opts d ↔ fs.HasClass d ∧ fs.Generates opts (fs.file d) := by
  constructor
  · intro h
    obtain ⟨k, g, hg, hdefines⟩ := h
    obtain ⟨_, _, hparts⟩ := generate_parts hg
    obtain ⟨e, he, rfl⟩ := hdefines.schema
    have hmem := (emit_mem hparts.schemas he).1
    exact ⟨((mem_generatedMessages hparts.listed).mp hmem).1, k, g, hg⟩
  · intro h
    obtain ⟨hcls, k, g, hg⟩ := h
    obtain ⟨_, _, hparts⟩ := generate_parts hg
    exact ⟨k, g, hg, hparts.defines hcls⟩

/-! ## Enums -/

/-- A field in a oneof has no record. -/
theorem oneof_of_kept {k : Nat} {node : IrNode n} (hbld : buildFieldIr fs.pool k f = .ok node)
    (hkeep : (projectIrToFieldMapping node).isSome = true) : f.realOneof = none := by
  cases hone : f.realOneof with
  | none => rfl
  | some _ =>
    cases k with
    | zero => cases hbld
    | succ k =>
      rw [buildFieldIr, hone] at hbld
      cases hbld
      cases hkeep

theorem enumOwner_spec {o : Fin n} (h : fs.enumOwner f = some o) :
    fs.pool.isRecursive o = false ∧ fs.pool.isFlattenedWrapper o = false ∧
      (fs.pool o).mapEntry = false := by
  unfold FileSet.enumOwner at h
  split at h
  · rename_i e he
    split at h
    · rename_i hemi
      rw [FileSet.enumEmittable, h, Bool.and_eq_true, Bool.not_eq_true', Bool.not_eq_true'] at hemi
      have hent : ∃ g : FieldDescriptor n, e = fs.enumType g := by
        unfold FileSet.fieldEnumType at he
        split at he
        · split at he
          · split at he
            · split at he
              · exact ⟨_, (Option.some.inj he).symm⟩
              · cases he
            · cases he
          · cases he
        · split at he
          · exact ⟨_, (Option.some.inj he).symm⟩
          · cases he
      obtain ⟨g, rfl⟩ := hent
      exact ⟨hemi.1, hemi.2, (fs.owner_file h).2⟩
    · cases h
  · cases h

/-! ## No missing class -/

section

variable {opts : PluginOptions} {k : Nat} {file : String} {g : Generated n}
  {classes : List (Emitted n)}

/-- What is named among the enum owners is emitted. -/
theorem NoMissingClass.owner (h : fs.NoMissingClass opts file)
    (hpts : Parts fs opts k file g messages classes)
    (hd : fs.OwnerIn g.header.classes d) : fs.Emits opts d := by
  obtain ⟨e, he, r, hr, howner⟩ := hd
  rw [hpts.header] at he
  split at he
  · cases he
  · rename_i hsch
    obtain ⟨hmem, hwalk⟩ := emit_mem hpts.gathered he
    obtain ⟨hm, hfile⟩ := (mem_generatedMessages hpts.listed).mp hmem
    obtain ⟨hkeep, _, hbld⟩ := walkFields_mem hwalk r hr
    obtain ⟨hrec, hwrp, hent⟩ := enumOwner_spec howner
    obtain ⟨hfound, hgen⟩ := h.owners (Bool.eq_false_iff.mpr hsch) e.message
      r.sourceField d hm hfile (walkFields_source hwalk r hr) (oneof_of_kept hbld hkeep) howner
    exact emits_iff.mpr ⟨⟨hent, hrec, hwrp, hfound⟩, hgen⟩

end

def succeeds (result : Gen (Except String (Generated n))) : Bool :=
  match result with
  | .ok (.ok _) => true
  | _ => false

end Fletcher.Protoc
