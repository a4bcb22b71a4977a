import Fletcher.Bridge.BatchWalk

/-!
# The two passes

Both sinks of the batch decoder are sinks of the grammar. The appending one reads every
scalar as the grammar does. The skipping one does so but for a `fixed_size_binary` of width
zero, where it reads a length and that many bytes.

From that `append_eq_ok` and `append_eq_error` say all an `Append` can do: it accepts a row of
the grammar and leaves the builders as replaying the row leaves them; or it changes nothing
but the scratch of the skip pass, and then there was no row, or no room; or a builder failed.
-/

namespace Fletcher.Bridge.Batch

open Lib Arrow Reader List

/-- What the skip pass does for a scalar. -/
def skipLeaf (t : DataType) (v : Value) (s : Builder × Pending) :
    Except BatchError (Builder × Pending) :=
  match t, v with
  | .var .string, .binary _ data | .var .binary, .binary _ data => budget
    "BatchDecoder: utf8/binary column would exceed Arrow's builder limit (2^31-2 bytes)"
    s.1.own.values.length data.length s
  | _, _ => .ok s

/-- The one type the skip pass does not read as the grammar does: with no width of its own,
it is taken for a length and its bytes. -/
def ZeroWidth : DataType → Prop
  | .fixed t => t.width = 0
  | _ => False

theorem not_holds_fixed {t : FixedType} (h : t.width ≠ 0) : ¬Holds ZeroWidth (.fixed t) := by
  intro hholds
  cases hholds with
  | here _ p => exact h p

theorem budget_error {text : String} {used count : Nat} {s : Builder × Pending} {e : BatchError}
    (h : budget text used count s = .error e) : e.isCapacity = true := by
  unfold budget at h
  split at h
  · cases h
    rfl
  · cases h

/-- The length-prefixed scalars, budgeted or not. -/
theorem tracks_skipVar (t : VarType) (s : Builder × Pending) :
    Tracks (skipScalar (.var t) s) (parse (.var t)) (fun s' v => skipLeaf (.var t) v s = .ok s')
      (fun e => e.isCapacity = true) := by
  refine tracks_readU32.bind ?_
  intro len _ hlen
  subst hlen
  refine tracks_take.bind ?_
  intro _ _ hdata
  rw [← hdata.1]
  cases t with
  | string | binary =>
    refine tracks_lift ?_ fun e he => budget_error he
    intro s' hs'
    rw [← hs', ← hdata.2]
    rfl
  | _ => exact tracks_pure rfl

theorem tracks_skipFixed {t : DataType} (hwid : 0 < fixedWidth t) (s : Builder × Pending) :
    Tracks (skipScalar t s) (parse t) (fun s' v => skipLeaf t v s = .ok s')
      (fun e => e.isCapacity = true) := by
  unfold skipScalar
  rw [if_pos hwid, parse_fixedWidth hwid]
  refine tracks_take.bind ?_
  intro a b _
  refine tracks_pure ?_
  cases t with
  | bool | fixed _ => rfl
  | _ => cases hwid

theorem skipSink_lawful : skipSink.Lawful skipLeaf ZeroWidth (fun e => e.isCapacity = true) where
  scalar := by
    intro t s hleaf hwid
    cases t with
    | var t => exact tracks_skipVar t s
    | bool => exact tracks_skipFixed (t := .bool) (by decide) s
    | fixed t => exact tracks_skipFixed (t := .fixed t) (Nat.pos_of_ne_zero hwid) s
    | _ => cases hleaf
  run := by
    intro t bytes count s s' hwid _ hrun
    cases hrun
    have hok : ∀ v, skipLeaf t v s = .ok s := by
      intro v
      cases t with
      | bool | fixed _ => rfl
      | _ => cases hwid
    generalize runValues t bytes count = vs
    induction vs with
    | nil => rfl
    | cons v vs ih =>
      rw [foldlM_cons, hok v]
      exact ih
  run_error := nofun
  null_error := nofun
  nulls_error := nofun
  structBegin_error := nofun
  list_error := by
    intro kind _ n s e h
    cases kind with
    | list => exact budget_error h
    | largeList => cases h
  fixedSizeList_error := nofun
  mapBegin_error := fun n s e h => budget_error h
  unionBegin_error := by
    intro mode _ _ k s e h
    cases mode with
    | dense => exact budget_error h
    | sparse => cases h

/-- What the append pass does for a scalar. -/
def appendLeaf (t : DataType) (v : Value) (b : Builder) : Except BatchError Builder :=
  match t, v with
  | .bool, .bool x => .ok (b.appendBools [if x then 1 else 0])
  | .fixed _, .fixed x => .ok (b.appendFixed x.repr 1)
  | .var t, .binary _ data => .ok (b.appendBinary t data)
  | _, _ => .ok b

theorem appendBools_append (b : Builder) (xs ys : Bytes) :
    (b.appendBools xs).appendBools ys = b.appendBools (xs ++ ys) := by
  obtain ⟨o, _⟩ := b
  simp [Builder.appendBools, Buffers.addSlots, Nat.add_assoc]

theorem appendFixed_append (b : Builder) (xs ys : Bytes) (m n : Nat) :
    (b.appendFixed xs m).appendFixed ys n = b.appendFixed (xs ++ ys) (m + n) := by
  obtain ⟨o, _⟩ := b
  simp [Builder.appendFixed, Buffers.addSlots, Nat.add_assoc]

theorem appendBools_ofBool (b : Builder) (x : UInt8) :
    b.appendBools [if (x != 0) = true then 1 else 0] = b.appendBools [x] := by
  obtain ⟨o, _⟩ := b
  by_cases hx : x = 0
  · simp [Builder.appendBools, hx]
  · simp [Builder.appendBools, hx]

theorem appendRun_permissive {t : DataType} (hwid : 0 < fixedWidth t) :
    ∀ (count : Nat) (bytes : Bytes) (b : Builder), bytes.length = count * fixedWidth t →
      appendRun .permissive t bytes count b = (runValues t bytes count).foldlM
        (fun b v => appendLeaf t v b) b
  | 0, bytes, b, hlen => by
    have hnil : bytes = [] := eq_nil_of_length_eq_zero (by omega)
    subst hnil
    obtain ⟨o, _⟩ := b
    cases t with
    | bool => simp [appendRun, Builder.appendBools, Buffers.addSlots, runValues]; rfl
    | fixed t => simp [appendRun, Builder.appendFixed, Buffers.addSlots, runValues]; rfl
    | _ => cases hwid
  | count + 1, bytes, b, hlen => by
    rw [Nat.succ_mul] at hlen
    -- the first value of the run, and the rest of it
    have hspl : bytes = bytes.take (fixedWidth t) ++ bytes.drop (fixedWidth t) :=
      (take_append_drop _ _).symm
    have hhead : (bytes.take (fixedWidth t)).length = fixedWidth t := by
      rw [length_take]
      omega
    have htail : (bytes.drop (fixedWidth t)).length = count * fixedWidth t := by
      rw [length_drop]
      omega
    generalize hx : bytes.take (fixedWidth t) = x at hspl hhead
    generalize hy : bytes.drop (fixedWidth t) = y at hspl htail
    subst hspl
    have hvalues : runValues t (x ++ y) (count + 1) = runValue t x :: runValues t y count := by
      unfold runValues
      rw [range_succ_eq_map, map_cons, List.map_map, slotBytes_append_zero hhead]
      simp only [Function.comp_def, Nat.succ_eq_add_one, slotBytes_append_succ hhead]
    rw [hvalues, foldlM_cons]
    cases t with
    | bool =>
      obtain ⟨a, ha⟩ := length_eq_one_iff.mp hhead
      subst ha
      show _ = (runValues .bool y count).foldlM _ (b.appendBools _)
      rw [← appendRun_permissive hwid count y _ htail]
      show Except.ok (b.appendBools ([a] ++ y)) = .ok ((b.appendBools _).appendBools y)
      rw [← appendBools_append, ← appendBools_ofBool]
      rfl
    | fixed ft =>
      show _ = (runValues (.fixed ft) y count).foldlM _
        (b.appendFixed (FixedValue.ofBytes ft x).repr 1)
      rw [← appendRun_permissive hwid count y _ htail, FixedValue.ofBytes_repr hhead]
      show Except.ok (b.appendFixed (x ++ y) (count + 1)) =
        .ok ((b.appendFixed x 1).appendFixed y count)
      rw [appendFixed_append, Nat.add_comm 1 count]
    | _ => cases hwid

theorem attempt_eq_ok {A : Api} {operation : String} {call : BuilderCall} {b b' c : Builder}
    (h : attempt A operation call b b' = .ok c) : c = b' := by
  unfold attempt at h
  split at h
  · exact (Except.ok.inj h).symm
  · cases h

theorem attempt_error {A : Api} {operation : String} {call : BuilderCall} {b b' : Builder}
    {e : BatchError} (h : attempt A operation call b b' = .error e) : e.isBuilder = true := by
  unfold attempt at h
  split at h
  · cases h
  · cases h
    rfl

theorem nullOthers_error {A : Api} {active : Nat} {e : BatchError} :
    ∀ {fields : List Field} {cs : List Builder} {k : Nat},
      nullOthers A active k fields cs = .error e → e.isBuilder = true
  | [], _, _, h => by cases h
  | _ :: _, [], _, h => by cases h
  | f :: fields, c :: cs, k, h => by
    rw [nullOthers] at h
    rcases bind_eq_error_iff.mp h with h | ⟨_, -, h⟩
    · split at h
      · cases h
      · exact attempt_error h
    · rcases bind_eq_error_iff.mp h with h | ⟨_, -, h⟩
      · exact nullOthers_error h
      · cases h

theorem appendSink_lawful (A : Api) :
    (appendSink A).Lawful appendLeaf (fun _ => False) (fun e => e.isBuilder = true) where
  scalar := by
    intro t b hleaf _
    cases t with
    | bool =>
      show Tracks (appendScalar A .bool b) _ _ _
      refine tracks_readByte.bind ?_
      intro x y hxy
      subst hxy
      refine tracks_lift ?_ fun _ => attempt_error
      intro b' hb'
      rw [attempt_eq_ok hb', ← appendBools_ofBool]
      rfl
    | fixed t =>
      show Tracks (appendScalar A (.fixed t) b) _ _ _
      refine tracks_take.bind ?_
      intro x y hxy
      rw [← hxy.1]
      refine tracks_lift ?_ fun _ => attempt_error
      intro b' hb'
      show Except.ok (b.appendFixed (FixedValue.ofBytes t x).repr 1) = _
      rw [FixedValue.ofBytes_repr hxy.2, attempt_eq_ok hb']
    | var t =>
      show Tracks (appendScalar A (.var t) b) _ _ _
      refine tracks_readU32.bind ?_
      intro len _ hlen
      subst hlen
      refine tracks_take.bind ?_
      intro x y hxy
      rw [← hxy.1]
      refine tracks_lift ?_ fun _ => attempt_error
      intro b' hb'
      rw [attempt_eq_ok hb']
      rfl
    | _ => cases hleaf
  run := by
    intro t bytes count b b' hwid hlen hrun
    rw [← appendRun_permissive hwid count bytes b hlen]
    cases t with
    | bool | fixed _ => rw [attempt_eq_ok hrun]; rfl
    | _ => cases hwid
  run_error := by
    intro t bytes count b e hwid h
    cases t with
    | bool | fixed _ => exact attempt_error h
    | _ => cases hwid
  null_error := fun _ _ _ => attempt_error
  nulls_error := fun _ _ _ _ => attempt_error
  structBegin_error := fun _ _ => attempt_error
  list_error := by
    intro kind _ _ _ _ h
    cases kind with
    | list | largeList => exact attempt_error h
  fixedSizeList_error := fun _ _ _ _ _ => attempt_error
  mapBegin_error := fun _ _ _ => attempt_error
  unionBegin_error := by
    intro mode _ _ k b e h
    cases mode with
    | dense => exact attempt_error h
    | sparse =>
      rcases bind_eq_error_iff.mp h with h | ⟨_, -, h⟩
      · exact attempt_error h
      · rcases bind_eq_error_iff.mp h with h | ⟨_, -, h⟩
        · exact nullOthers_error h
        · cases h

theorem listBegin_eq_ok {A : Api} {kind : ListKind} {item : Field} {n : Nat} {b b' : Builder}
    (h : (appendSink A).listBegin (.list kind item) n b = .ok b') : b' = b.appendStart := by
  cases kind with
  | list | largeList => exact attempt_eq_ok h

theorem sparseBegin_eq_ok {A : Api} {fields : List Field} {code : UInt8} {k : Nat}
    {b b' : Builder} (h : (appendSink A).unionBegin .sparse fields code k b = .ok b') :
    ∃ cs, nullOthers A k 0 fields (b.appendSparse code).children = .ok cs ∧
      b' = .mk (b.appendSparse code).own cs := by
  obtain ⟨_, hslot, h⟩ := bind_eq_ok_iff.mp h
  obtain rfl := attempt_eq_ok hslot
  obtain ⟨cs, hcs, h⟩ := bind_eq_ok_iff.mp h
  cases h
  exact ⟨cs, hcs, rfl⟩

/-! ## Rows -/

/-- A row that takes the whole input. -/
def parseWhole (fields : List Field) : Parse Row := do
  let row ← parseSlots (parsers fields)
  let left ← remaining
  require () (left == 0)
  pure row

theorem parseWhole_eq_ok {fields : List Field} {buf rest : Bytes} {row : Row} :
    parseWhole fields buf = .ok (row, rest) ↔
      parseSlots (parsers fields) buf = .ok (row, []) ∧ rest = [] := by
  unfold parseWhole
  rw [bind_eq_ok]
  constructor
  · intro h
    obtain ⟨_, mid, hrow, h⟩ := h
    rw [bind_of_ok remaining_apply] at h
    obtain ⟨u, _, hreq, h⟩ := bind_eq_ok.mp h
    obtain ⟨hnil, rfl⟩ := require_eq_ok.mp hreq
    obtain ⟨rfl, rfl⟩ := pure_eq_ok.mp h
    have hmid : mid = [] := eq_nil_of_length_eq_zero (by simpa using hnil)
    subst hmid
    exact ⟨hrow, rfl⟩
  · intro h
    obtain ⟨hrow, rfl⟩ := h
    exact ⟨row, [], hrow, rfl⟩

theorem tracks_skipRow {fields : List Field}
    (h : ∀ f ∈ fields, f.type.supported = true ∧ ¬Holds ZeroWidth f.type) (s : Builder × Pending) :
    Tracks (walkRow skipSink fields s) (parseWhole fields)
      (fun s' row => replayRow skipSink skipLeaf fields row s = .ok s')
      (fun e => e.isCapacity = true) := by
  unfold walkRow parseWhole
  rw [← bind_bind]
  refine (tracks_row skipSink_lawful h s).bind ?_
  intro s' row hrow
  show Tracks ((remaining >>= fun left => require _ (left == 0)) >>= fun _ => pure s') _ _ _
  rw [bind_bind]
  exact Tracks.require_both (tracks_pure hrow)

theorem tracks_appendRow (A : Api) {fields : List Field}
    (h : ∀ f ∈ fields, f.type.supported = true) (b : Builder) :
    Tracks (walkRow (appendSink A) fields b) (parseSlots (parsers fields))
      (fun b' row => replayRow (appendSink A) appendLeaf fields row b = .ok b')
      (fun e => e.isBuilder = true) := by
  have hholds : ∀ {t : DataType}, ¬Holds (fun _ => False) t := by
    intro t ht
    induction ht with
    | here _ p => exact p
    | _ => assumption
  unfold walkRow
  rw [← bind_bind, ← bind_pure_self (parseSlots _)]
  refine (tracks_row (appendSink_lawful A) (fun f hf => ⟨h f hf, hholds⟩) b).bind ?_
  intro b' row hrow
  exact tracks_pure hrow

/-! ## Decoders that can be built -/

mutual

/-- Every union in the tree has a code per child, as Arrow has it. -/
def codesMatch : DataType → Bool
  | .struct fields => codesMatchAll fields
  | .list _ ⟨_, t, _⟩ | .fixedSizeList ⟨_, t, _⟩ _ => codesMatch t
  | .map ⟨_, kt, _⟩ ⟨_, vt, _⟩ _ => codesMatch kt && codesMatch vt
  | .union _ fields codes => codes.length == fields.length && codesMatchAll fields
  | .dictionary _ t _ => codesMatch t
  | _ => true

def codesMatchAll : List Field → Bool
  | [] => true
  | ⟨_, t, _⟩ :: fs => codesMatch t && codesMatchAll fs

end

theorem codesMatchAll_iff : ∀ {fields : List Field},
    codesMatchAll fields = true ↔ ∀ f ∈ fields, codesMatch f.type = true
  | [] => by simp [codesMatchAll]
  | ⟨_, t, _⟩ :: fs => by simp [codesMatchAll, @codesMatchAll_iff fs]

theorem buildNodes_eq_ok {A : Api} : ∀ {fields : List Field},
    buildNodes A fields = .ok () → ∀ f ∈ fields, buildNode A f.type f.name = .ok ()
  | [], _ => by simp
  | ⟨name, t, nullable⟩ :: fs, h => by
    obtain ⟨u, hhead, htail⟩ := bind_eq_ok_iff.mp h
    intro f hf
    rcases mem_cons.mp hf with rfl | hf
    · exact hhead
    · exact buildNodes_eq_ok htail f hf

/-- `BuildNode` turns away what has no layout here. -/
theorem supported_of_buildNode {A : Api} {t : DataType} {name : String}
    (h : buildNode A t name = .ok ()) (hcds : codesMatch t = true) : t.supported = true := by
  induction t generalizing name with
  | bool | fixed _ | var _ => rfl
  | struct fields ih =>
    rw [codesMatch, codesMatchAll_iff] at hcds
    rw [DataType.supported, fieldsSupported_iff]
    obtain ⟨u, hfs, -⟩ := bind_eq_ok_iff.mp h
    exact fun f hf => ih f hf (buildNodes_eq_ok hfs f hf) (hcds f hf)
  | list _ item ih | fixedSizeList item _ ih =>
    obtain ⟨u, hitem, -⟩ := bind_eq_ok_iff.mp h
    exact ih hitem hcds
  | map _ item _ ihk ihv =>
    rw [codesMatch, Bool.and_eq_true] at hcds
    obtain ⟨u, hkey, h⟩ := bind_eq_ok_iff.mp h
    obtain ⟨_, hitem, -⟩ := bind_eq_ok_iff.mp h
    exact supported_map.mpr ⟨ihk hkey hcds.1, ihv hitem hcds.2⟩
  | union _ fields _ ih =>
    rw [codesMatch, Bool.and_eq_true, beq_iff_eq, codesMatchAll_iff] at hcds
    obtain ⟨u, hfs, -⟩ := bind_eq_ok_iff.mp h
    exact supported_union.mpr
      ⟨hcds.1, fun f hf => ih f hf (buildNodes_eq_ok hfs f hf) (hcds.2 f hf)⟩
  | dictionary _ _ _ _ => cases h
  | unsupported _ => cases h

/-- The columns are built from layouts with builders; a dictionary holds scalars and has no
order of its own. -/
structure BuildableType (t : DataType) : Prop where
  supported : (buildType t).supported = true
  carried : t.carried = true
  unordered : ∀ index value ordered, t = .dictionary index value ordered → ordered = false

def Buildable (schema : Schema) : Prop := ∀ f ∈ schema, BuildableType f.type

theorem buildableType_of_buildField {A : Api} {f : Field} (h : buildField A f = .ok ())
    (hcds : codesMatch f.type = true) : BuildableType f.type := by
  obtain ⟨name, t, _⟩ := f
  obtain ⟨u, hdict, hnode⟩ := bind_eq_ok_iff.mp h
  have hbld : buildNode A (buildType t) name = .ok () := by
    cases hmake : A.makeBuilder (buildType t) with
    | some _ => rw [hmake] at hnode; cases hnode
    | none => rw [hmake] at hnode; exact hnode
  have hmat : codesMatch (buildType t) = true := by
    cases t with
    | dictionary index value ordered => exact hcds
    | _ => exact hcds
  have hsupported := supported_of_buildNode hbld hmat
  cases t with
  | dictionary index value ordered =>
    unfold checkDictionary at hdict
    cases ordered with
    | true => cases hdict
    | false =>
      refine ⟨hsupported, ?_, fun _ _ _ heq => by cases heq; rfl⟩
      rw [DataType.carried]
      -- what is left of the value types is a scalar that is not a half float
      cases value with
      | bool | var _ => rfl
      | fixed ft => cases ft <;> first | rfl | cases hdict
      | unsupported _ => exact absurd hsupported (by simp [buildType, DataType.supported])
      | _ => cases hdict
  | _ => exact ⟨hsupported, DataType.carried_of_supported hsupported,
      fun _ _ _ heq => by cases heq⟩

theorem forM_eq_ok {A : Api} : ∀ {schema : Schema}, schema.forM (buildField A) = .ok () →
    ∀ f ∈ schema, buildField A f = .ok ()
  | [], _ => by simp
  | f :: fs, h => by
    obtain ⟨u, hhead, htail⟩ := bind_eq_ok_iff.mp h
    intro g hg
    rcases mem_cons.mp hg with rfl | hg
    · exact hhead
    · exact forM_eq_ok htail g hg

/-- **Construction.** A decoder that was built is empty, and its schema can be decoded. -/
theorem build_eq_ok {A : Api} {schema : Schema} {d : BatchDecoder}
    (h : BatchDecoder.build A schema = .ok d) (hcds : ∀ f ∈ schema, codesMatch f.type = true) :
    d = .fresh schema ∧ Buildable schema := by
  obtain ⟨u, hfs, hd⟩ := bind_eq_ok_iff.mp h
  refine ⟨(Except.ok.inj hd).symm, ?_⟩
  intro f hf
  exact buildableType_of_buildField (forM_eq_ok hfs f hf) (hcds f hf)

/-- A column is read in the type it is built in. -/
theorem parse_buildType (t : DataType) : parse (buildType t) = parse t := by
  cases t with
  | dictionary _ _ _ => rw [parse]; rfl
  | _ => rfl

theorem parsers_buildFields (schema : Schema) : parsers (buildFields schema) = parsers schema := by
  rw [parsers_eq_map, parsers_eq_map, buildFields, List.map_map]
  refine map_congr_left ?_
  intro f _
  exact parse_buildType f.type

/-- **`Codec::DecodeRow` reads the grammar** under every schema a decoder can be built for. -/
theorem decodeRow_buildable {A : Api} (hA : A.Lawful) {schema : Schema} (h : Buildable schema)
    {buf : Bytes} {row : Row} :
    decodeRow A schema buf = .ok row ↔ parseRow schema buf = some row := by
  rw [decodeRow_keeps hA fun f hf => (h f hf).carried]
  refine and_iff_left_of_imp ?_
  intro hrow
  rw [RowBuilds, fieldsBuild_eq_map, forall₂_map_left_iff]
  refine forall₂_imp_mem (parseRow_parsed hrow) ?_
  intro f hf v hslot hn
  rcases hslot with rfl | ⟨hty, -⟩
  · cases hn
  · have hsupported := (h f hf).supported
    obtain ⟨_, t, _⟩ := f
    cases t with
    | dictionary _ _ _ => trivial
    | _ => exact builds_of_supported hA hsupported hty

/-! ## What an `Append` does -/

section Append

variable {A : Api} {d d' : BatchDecoder} {buf : Bytes}

/-- The decoder's schema can be decoded, and no row of it holds a zero-width value. -/
structure Regular (d : BatchDecoder) : Prop where
  buildable : Buildable d.schema
  holds : ∀ f ∈ d.schema, ¬Holds ZeroWidth (buildType f.type)

theorem Regular.fields (h : Regular d) :
    ∀ f ∈ d.fields, f.type.supported = true ∧ ¬Holds ZeroWidth f.type := by
  intro f hf
  obtain ⟨g, hg, rfl⟩ := mem_map.mp hf
  exact ⟨(h.buildable g hg).supported, h.holds g hg⟩

/-- The appending pass reads every row of the grammar, unless a builder fails. -/
theorem appendRow_of_parse (h : Buildable d.schema) {row : Row} {rest : Bytes}
    (hpar : parseSlots (parsers d.schema) buf = .ok (row, rest)) :
    (∃ root, d.appendRow A buf = .ok (root, rest) ∧
      replayRow (appendSink A) appendLeaf d.fields row d.root = .ok root) ∨
    ∃ e, d.appendRow A buf = .error e ∧ e.isBuilder = true := by
  have hsupported : ∀ f ∈ d.fields, f.type.supported = true := by
    intro f hf
    obtain ⟨g, hg, rfl⟩ := mem_map.mp hf
    exact (h g hg).supported
  have htr := tracks_appendRow A hsupported d.root
  rw [show parsers d.fields = parsers d.schema from parsers_buildFields d.schema] at htr
  unfold BatchDecoder.appendRow
  cases hrun : walkRow (appendSink A) d.fields d.root buf with
  | error e =>
    rcases htr.error hrun with hbld | hfail
    · exact .inr ⟨e, rfl, hbld⟩
    · exact absurd hpar (hfail _)
  | ok p =>
    obtain ⟨root, _⟩ := p
    obtain ⟨_, hrow', hrep⟩ := htr.ok hrun
    rw [hpar] at hrow'
    cases hrow'
    exact .inl ⟨root, rfl, hrep⟩

theorem skipRow_eq_ok (h : Regular d) {s : Builder × Pending} {rest : Bytes}
    (hskip : d.skipRow buf = .ok (s, rest)) :
    rest = [] ∧ ∃ row, parseRow d.schema buf = some row ∧
      replayRow skipSink skipLeaf d.fields row (d.root, d.clearPending) = .ok s := by
  obtain ⟨row, hrow, hrep⟩ := (tracks_skipRow h.fields _).ok hskip
  obtain ⟨hpar, hrest⟩ := parseWhole_eq_ok.mp hrow
  refine ⟨hrest, row, ?_, hrep⟩
  rw [parseRow_eq_some, ← parsers_buildFields]
  exact hpar

theorem skipRow_eq_error (h : Regular d) {e : BatchError} (hskip : d.skipRow buf = .error e) :
    e.isCapacity = true ∨ parseRow d.schema buf = none := by
  rcases (tracks_skipRow h.fields _).error hskip with hcap | hfail
  · exact .inl hcap
  · right
    cases hrow : parseRow d.schema buf with
    | none => rfl
    | some row =>
      rw [parseRow_eq_some, ← parsers_buildFields] at hrow
      exact absurd (parseWhole_eq_ok.mpr ⟨hrow, rfl⟩) (hfail (row, []))

/-- **An accepted row** is a row of the grammar, and both passes replay it. -/
theorem append_eq_ok (h : Regular d) (happ : d.append A buf = (.ok (), d')) :
    ∃ row skipped root, parseRow d.schema buf = some row ∧
      replayRow skipSink skipLeaf d.fields row (d.root, d.clearPending) = .ok skipped ∧
      replayRow (appendSink A) appendLeaf d.fields row d.root = .ok root ∧
      d' = { d with root, pending := skipped.2, rows := d.rows + 1 } := by
  unfold BatchDecoder.append at happ
  cases hskip : d.skipRow buf with
  | error e =>
    rw [hskip] at happ
    cases happ
  | ok p =>
    obtain ⟨skipped, _⟩ := p
    obtain ⟨-, row, hrow, hrep⟩ := skipRow_eq_ok h hskip
    rw [hskip] at happ
    rcases appendRow_of_parse (A := A) h.buildable (parseRow_eq_some.mp hrow) with
      ⟨root, hroot, happly⟩ | ⟨_, herr, -⟩
    · rw [hroot] at happ
      cases happ
      exact ⟨row, skipped, root, hrow, hrep, happly, rfl⟩
    · rw [herr] at happ
      cases happ

/-- **A row that is not accepted** leaves everything but the scratch, and did not fit or was
none; or a builder failed. -/
theorem append_eq_error (h : Regular d) {e : BatchError} (happ : d.append A buf = (.error e, d')) :
    ((e.isCapacity = true ∨ parseRow d.schema buf = none) ∧
      d' = { d with pending := d.clearPending }) ∨ e.isBuilder = true := by
  unfold BatchDecoder.append at happ
  cases hskip : d.skipRow buf with
  | error _ =>
    rw [hskip] at happ
    cases happ
    exact .inl ⟨skipRow_eq_error h hskip, rfl⟩
  | ok p =>
    obtain ⟨_, _⟩ := p
    obtain ⟨-, _, hrow, -⟩ := skipRow_eq_ok h hskip
    rw [hskip] at happ
    rcases appendRow_of_parse (A := A) h.buildable (parseRow_eq_some.mp hrow) with
      ⟨_, hroot, -⟩ | ⟨_, herr, hbld⟩
    · rw [hroot] at happ
      cases happ
    · rw [herr] at happ
      cases happ
      exact .inr hbld

end Append

end Fletcher.Bridge.Batch
