import Fletcher.Bridge.BatchValues

/-!
# Whole histories of a batch decoder

A ledger beside the decoder says which rows the next batch ought to have. As long as every
`Finish` returns and no builder fails, a batch holds them, as far as its offsets reach: a dense
union stores an `int32` for each slot and lets null rows in without end, so that the `2^32`th
is found where the first row is.

`Finish` empties the builders column by column and re-folds each dictionary column as it
goes. When a re-fold fails it throws from the middle of the loop: the columns up to that one
are empty, the ones behind it still hold their rows, and the row count still counts them. The
next `Finish` may then succeed, and its batch has a column that is too short. It is not right
before a `Finish` has returned.

When a builder fails, what the builders hold is anybody's guess, until a `Finish` returns.
-/

namespace Fletcher.Bridge.Batch

open Lib Arrow Reader List BatchDecoder

/-! ## The columns -/

section Columns

variable {A : Api} {K : Compute}

theorem setChild_children_length (k : Nat) (b c : Builder) :
    (Builder.setChild k c b).children.length = b.children.length := length_set

theorem replayFields_columns {plays : List (Value → Builder → Except BatchError Builder)} {k : Nat}
    {vs : List Value} {b b' : Builder} (h : replayFields (appendSink A) k plays vs b = .ok b') :
    b'.children.length = b.children.length := by
  induction plays generalizing k vs b with
  | nil =>
    cases h
    rfl
  | cons play plays ih =>
    cases vs with
    | nil =>
      cases h
      rfl
    | cons v vs =>
      obtain ⟨c, -, h⟩ := bind_eq_ok_iff.mp h
      exact (ih h).trans (setChild_children_length k b c)

/-- Whatever comes of an `Append`, there are as many columns. -/
theorem append_columns {d : BatchDecoder} (h : Regular d) (buf : Bytes) :
    (d.append A buf).2.root.children.length = d.root.children.length := by
  cases hrun : d.append A buf with
  | mk answer d' =>
    cases answer with
    | ok u =>
      obtain ⟨_, _, _, -, -, hrep, rfl⟩ := append_eq_ok h hrun
      exact replayFields_columns hrep
    | error e =>
      unfold append at hrun
      split at hrun
      · cases hrun
        rfl
      · split at hrun
        · cases hrun
          simp [remains, Builder.children]
        · cases hrun

theorem append_error_rows {d d' : BatchDecoder} {buf : Bytes} {e : BatchError}
    (h : d.append A buf = (.error e, d')) : d'.rows = d.rows := by
  unfold append at h
  split at h
  · cases h
    rfl
  · split at h
    · cases h
      rfl
    · cases h

theorem finishColumns_columns : ∀ {fs : List Field} {k : Nat} {root : Builder},
    (finishColumns A K fs k root).2.children.length = root.children.length
  | [], _, _ => rfl
  | f :: fs, k, root => by
    rw [finishColumns]
    split
    · exact setChild_children_length k root _
    · dsimp only
      split
      · exact setChild_children_length k root _
      · have hrest : (finishColumns A K fs (k + 1) (Builder.setChild k
            (makeBuilder (buildType f.type)) root)).2.children.length = root.children.length :=
          finishColumns_columns.trans (setChild_children_length k root _)
        split
        · next hrun => rwa [hrun] at hrest
        · next hrun => rwa [hrun] at hrest

/-- `Finish` empties columns, and does nothing else to them unless a builder fails. -/
theorem finishColumns_preserves {P : Builder → Prop} {fs : List Field} {k : Nat} {root : Builder}
    (hset : ∀ i f root, fs[i]? = some f → P root →
      P (Builder.setChild (k + i) (makeBuilder (buildType f.type)) root)) (h : P root)
    (hcalm : ∀ e, (finishColumns A K fs k root).1 = .error e → e.isBuilder = false) :
    P (finishColumns A K fs k root).2 := by
  induction fs generalizing k root with
  | nil => exact h
  | cons f fs ih =>
    have hreset : P (Builder.setChild k (makeBuilder (buildType f.type)) root) :=
      hset 0 f root rfl h
    have hset' : ∀ i g root, fs[i]? = some g → P root →
        P (Builder.setChild (k + 1 + i) (makeBuilder (buildType g.type)) root) := by
      intro i g root hg h
      rw [Nat.add_assoc, Nat.add_comm 1 i]
      exact hset (i + 1) g root hg h
    have hrest := ih hset' hreset
    rw [finishColumns] at hcalm ⊢
    cases hst : A.builder (.finish (buildType f.type)) (root.child k) with
    | some st =>
      rw [hst] at hcalm
      cases hcalm _ rfl
    | none =>
      rw [hst] at hcalm
      dsimp only at hcalm ⊢
      cases hfold : refold A K f.type (Arrow.finish (buildType f.type) (root.child k)) with
      | error e => exact hreset
      | ok column =>
        rw [hfold] at hcalm
        dsimp only at hcalm ⊢
        cases hrun : finishColumns A K fs (k + 1)
            (Builder.setChild k (makeBuilder (buildType f.type)) root) with
        | mk answer root' =>
          rw [hrun] at hrest hcalm
          cases answer with
          | error e => exact hrest hcalm
          | ok _ =>
            refine hrest fun e he => ?_
            cases he

theorem finish_root (d : BatchDecoder) :
    (d.finish A K).2.root = (finishColumns A K d.schema 0 d.root).2 ∧
      ∀ e, (d.finish A K).1 = .error e → (finishColumns A K d.schema 0 d.root).1 = .error e ∧
        (d.finish A K).2.rows = d.rows := by
  unfold BatchDecoder.finish
  cases hrun : finishColumns A K d.schema 0 d.root with
  | mk answer root =>
    cases answer with
    | error e => exact ⟨rfl, fun e' he' => ⟨congrArg Except.error (Except.error.inj he'), rfl⟩⟩
    | ok _ => exact ⟨rfl, nofun⟩

end Columns

/-! ## The ledger -/

/-- A decoder with what its next batch ought to hold. -/
structure Ledger where
  decoder : BatchDecoder
  /-- The buffers accepted since the last `Finish`, whether it returned or threw. -/
  bufs : List Bytes
  /-- Since the last `Finish` that returned, one threw while rows were pending. -/
  lost : Bool
  /-- Since the last `Finish` that returned, a builder failed. -/
  broken : Bool

namespace Ledger

/-- The ledger of a new decoder. -/
def opened (d : BatchDecoder) : Ledger := ⟨d, [], false, false⟩

/-- A call, with its entry in the ledger. -/
def call (A : Api) (K : Compute) (s : Ledger) : Call → Ledger
  | .append buf =>
    match s.decoder.append A buf with
    | (.ok _, d) => ⟨d, s.bufs ++ [buf], s.lost, s.broken⟩
    | (.error e, d) => ⟨d, s.bufs, s.lost, s.broken || e.isBuilder⟩
  | .finish =>
    match s.decoder.finish A K with
    | (.ok _, d) => ⟨d, [], false, false⟩
    | (.error e, d) => ⟨d, [], s.lost || !s.bufs.isEmpty, s.broken || e.isBuilder⟩

/-- Unless rows were lost or a builder failed, the builders carry the rows of the ledger; and
the decoder counts these rows, and the lost ones. -/
structure Kept (schema : Schema) (s : Ledger) : Prop where
  schema_eq : s.decoder.schema = schema
  columns : s.decoder.root.children.length = schema.length
  carried : s.lost = false → s.broken = false → ∃ rows, Carries s.decoder rows ∧
    List.Forall₂ (fun buf row => parseRow schema buf = some row) s.bufs rows
  counted : s.bufs.length ≤ s.decoder.rows
  behind : s.lost = true → s.bufs.length < s.decoder.rows

section Kept

variable {A : Api} {K : Compute} {schema : Schema} {s : Ledger}

theorem kept_append (hsch : Buildable schema)
    (hwid : ∀ f ∈ schema, ¬Holds ZeroWidth (buildType f.type))
    (hsizes : ∀ f ∈ schema, sizesFit f.type = true) (h : Kept schema s) (buf : Bytes) :
    Kept schema (s.call A K (.append buf)) := by
  obtain ⟨d, _, _, broken⟩ := s
  obtain ⟨rfl, hcs, hcar, hcnt, hbeh⟩ := h
  dsimp only at hcs hcar hcnt hbeh hsch hwid hsizes
  have hreg : Regular d := ⟨hsch, hwid⟩
  have hkeep := append_schema A d buf
  have hcols := append_columns (A := A) hreg buf
  unfold call
  dsimp only
  cases hrun : d.append A buf with
  | mk answer d' =>
    rw [hrun] at hkeep hcols
    cases answer with
    | error e =>
      have hrows := append_error_rows hrun
      refine ⟨hkeep, hcols.trans hcs, ?_, hrows ▸ hcnt, hrows ▸ hbeh⟩
      intro hlost hbrk
      obtain ⟨hbrk, hcalm⟩ := Bool.or_eq_false_iff.mp hbrk
      obtain ⟨rows, hcarr, hbufs⟩ := hcar hlost hbrk
      rcases append_eq_error hreg hrun with ⟨-, rfl⟩ | hbld
      · exact ⟨rows, ⟨hcarr.count, hcarr.stored⟩, hbufs⟩
      · rw [hcalm] at hbld
        cases hbld
    | ok u =>
      obtain ⟨_, _, _, -, -, -, heq⟩ := append_eq_ok hreg hrun
      have hrows : d'.rows = d.rows + 1 := by rw [heq]
      refine ⟨hkeep, hcols.trans hcs, ?_, ?_, ?_⟩
      · intro hlost hbrk
        obtain ⟨rows, hcarr, hbufs⟩ := hcar hlost hbrk
        obtain ⟨row, hrow, hnext⟩ := carries_append hreg hsizes hcarr hrun
        exact ⟨rows ++ [row], hnext, rel_append hbufs (.cons hrow .nil)⟩
      · rw [hrows, length_append]
        exact Nat.succ_le_succ hcnt
      · intro hlost
        rw [hrows, length_append]
        exact Nat.succ_lt_succ (hbeh hlost)

theorem kept_finish (hsch : Buildable schema) (h : Kept schema s) :
    Kept schema (s.call A K .finish) := by
  obtain ⟨d, bufs, lost, broken⟩ := s
  obtain ⟨rfl, hcs, hcar, hcnt, hbeh⟩ := h
  dsimp only at hcs hcar hcnt hbeh hsch
  have hkeep := finish_schema A K d
  obtain ⟨hroot, herr⟩ := finish_root (A := A) (K := K) d
  unfold call
  dsimp only
  cases hrun : d.finish A K with
  | mk answer d' =>
    rw [hrun] at hkeep hroot herr
    cases answer with
    | ok _ =>
      obtain ⟨-, -, ⟨o, rfl⟩, -⟩ := finish_eq_ok hcs hrun
      refine ⟨rfl, ?_, fun _ _ => ⟨[], ⟨rfl, storesAll_fresh hsch⟩, .nil⟩, Nat.le_refl _, nofun⟩
      simp [Builder.children, makeBuilders_eq_map, fields, buildFields]
    | error e =>
      obtain ⟨hcols, hrows⟩ := herr e rfl
      have hcs' : d'.root.children.length = d.schema.length := by
        rw [show d'.root = _ from hroot, finishColumns_columns, hcs]
      have hpos : (lost || !bufs.isEmpty) = true → 0 < d'.rows := by
        intro hlost
        rw [show d'.rows = d.rows from hrows]
        rcases Bool.or_eq_true_iff.mp hlost with hlost | hbufs
        · exact Nat.zero_lt_of_lt (hbeh hlost)
        · have := length_pos_of_ne_nil (l := bufs) (by simpa using hbufs)
          omega
      refine ⟨hkeep, hcs', ?_, Nat.zero_le _, hpos⟩
      -- nothing was pending, so the columns that were not reached are empty as well
      intro hlost hbrk
      obtain ⟨hlost, hbufs⟩ := Bool.or_eq_false_iff.mp hlost
      obtain ⟨hbrk, hcalm⟩ := Bool.or_eq_false_iff.mp hbrk
      obtain ⟨rows, hcarr, hall⟩ := hcar hlost hbrk
      obtain rfl : bufs = [] := by simpa using hbufs
      cases hall
      refine ⟨[], ⟨(show d'.rows = d.rows from hrows).trans hcarr.count, ?_⟩, .nil⟩
      rw [fields, hkeep, show d'.root = _ from hroot]
      refine finishColumns_preserves (P := fun root => StoresAll d.fields root.children
        (columnsOf d.fields.length [])) ?_ hcarr.stored fun e' he' => ?_
      · intro i f root hf hsto
        have hbld := fields_getElem? hf
        have hset := storesAll_set hsto hbld
          (stores_makeBuilder (hsch f (mem_of_getElem? hf)).supported)
        have hsame : (columnsOf d.fields.length []).set i [] = columnsOf d.fields.length [] := by
          rw [columnsOf_nil, set_replicate_self]
        rw [hsame] at hset
        rw [Nat.zero_add]
        exact hset
      · rw [hcols] at he'
        exact Except.error.inj he' ▸ hcalm

/-- **The ledger is kept** whatever is called. -/
theorem kept (hsch : Buildable schema) (hwid : ∀ f ∈ schema, ¬Holds ZeroWidth (buildType f.type))
    (hsizes : ∀ f ∈ schema, sizesFit f.type = true)
    (hrun : Reaches (fun s c => some (call A K s c)) (opened (.fresh schema)) s) :
    Kept schema s := by
  refine Reaches.preserves ?_ ?_ hrun
  · intro s c _ h hstep
    cases hstep
    cases c with
    | append buf => exact kept_append hsch hwid hsizes h buf
    | finish => exact kept_finish hsch h
  · refine ⟨rfl, ?_, fun _ _ => ⟨[], carries_fresh hsch, .nil⟩, Nat.le_refl _, nofun⟩
    simp [opened, fresh, Builder.children, makeBuilders_eq_map, buildFields]

end Kept

end Ledger

/-! ## Which batches are right -/

/-- The batch holds exactly the rows of the buffers, all columns as long as it says. -/
def Holding (A : Api) (schema : Schema) (bufs : List Bytes) (batch : RecordBatch) : Prop :=
  ∃ rows, List.Forall₂ (fun buf row => decodeRow A schema buf = .ok row) bufs rows ∧
    Shows schema rows batch

section Batches

variable {A : Api} {K : Compute} {schema : Schema} {s : Ledger}

theorem Ledger.Kept.holding (h : s.Kept schema) (hA : A.Lawful) (hK : K.Lawful)
    (hsch : Buildable schema) (hsizes : ∀ f ∈ schema, sizesFit f.type = true)
    (hlost : s.lost = false) (hbrk : s.broken = false)
    (hlim : WithinLimits (.struct (buildFields schema)) s.decoder.root) {batch : RecordBatch}
    {d' : BatchDecoder} (hfin : s.decoder.finish A K = (.ok batch, d')) :
    Holding A schema s.bufs batch := by
  obtain ⟨rfl, -, hcar, -, -⟩ := h
  obtain ⟨rows, hrows, hbufs⟩ := hcar hlost hbrk
  refine ⟨rows, hbufs.imp fun buf row hrow => (decodeRow_buildable hA hsch).mpr hrow, ?_⟩
  exact carries_finish hK hrows hlim (width_of_parseRow hsizes hbufs) hfin

/-- **Batches are the decoded rows.** Whatever was called before, as long as no rows were lost in
a `Finish` and no builder failed: the next batch has, row for row, what the codec decodes from
the buffers accepted since the last one, if the builders are within their limits; and an `Append`
that refuses a row might as well not have been called. -/
theorem batch_shows_decoded_rows (hA : A.Lawful) (hK : K.Lawful) {d₀ : BatchDecoder}
    (hbuild : build A schema = .ok d₀) (hcodes : ∀ f ∈ schema, codesMatch f.type = true)
    (hsizes : ∀ f ∈ schema, sizesFit f.type = true)
    (hwidth : ∀ f ∈ schema, ¬Holds ZeroWidth (buildType f.type))
    (hrun : Reaches (fun s c => some (Ledger.call A K s c)) (.opened d₀) s) (hlost : s.lost = false)
    (hintact : s.broken = false) :
    (∀ batch d', s.decoder.finish A K = (.ok batch, d') →
      WithinLimits (.struct (buildFields schema)) s.decoder.root → Holding A schema s.bufs batch) ∧
    ∀ buf e d', s.decoder.append A buf = (.error e, d') → e.isBuilder = false →
      d'.root = s.decoder.root ∧ d'.rows = s.decoder.rows ∧ ∀ calls,
        outputs (call A K) d' calls =
          outputs (call A K) s.decoder calls := by
  obtain ⟨rfl, hschema⟩ := build_eq_ok hbuild hcodes
  have hkept := Ledger.kept hschema hwidth hsizes hrun
  refine ⟨?_, ?_⟩
  · intro batch d' hfinish hlimits
    exact hkept.holding hA hK hschema hsizes hlost hintact hlimits hfinish
  · intro buf e d' herror hcalm
    have hregular : Regular s.decoder := by
      rw [← hkept.schema_eq] at hschema hwidth
      exact ⟨hschema, hwidth⟩
    rcases append_eq_error hregular herror with ⟨-, rfl⟩ | hbuilder
    · exact ⟨rfl, rfl, fun calls => twins_outputs (twins_clear s.decoder) calls⟩
    · rw [hcalm] at hbuilder
      cases hbuilder

end Batches

/-- Types that are equal when their dictionaries' indices are. -/
def strictApi : Api :=
  { Api.permissive with
    equals := fun
      | .dictionary index _ _, .dictionary index' _ _ => index == index'
      | _, _ => true }

theorem strictApi_lawful : strictApi.Lawful :=
  { Api.permissive_lawful with
    equals_self := by
      intro t
      cases t with
      | dictionary index _ _ => exact beq_self_eq_true index
      | _ => rfl }

/-- A dictionary of bytes under a signed index, which has room for 128 of them, and a plain
column of bytes. -/
def narrowSchema : Schema :=
  [⟨"k", .dictionary .int8 (.fixed .uint8) false, true⟩, ⟨"v", .fixed .uint8, true⟩]

theorem narrowSchema_width : ∀ f ∈ narrowSchema, ¬Holds ZeroWidth (buildType f.type) := by
  have hbyte : ¬Holds ZeroWidth (.fixed .uint8) := not_holds_fixed (by decide)
  intro f hf
  rcases mem_cons.mp hf with rfl | hf
  · exact hbyte
  · rw [mem_singleton.mp hf]
    exact hbyte

/-- The decoder after a list of calls. -/
def BatchDecoder.after (A : Api) (K : Compute) (d : BatchDecoder) (calls : List Call) :
    BatchDecoder :=
  calls.foldl (fun d c => (d.call A K c).2) d

/-- A row with the byte in both columns. -/
def byteRow (i : Nat) : Call := .append [0, UInt8.ofNat i, UInt8.ofNat i]

theorem withinLimits_fixed {fields : List Field} (h : ∀ f ∈ fields, ∃ t, f.type = .fixed t)
    (b : Builder) : WithinLimits (.struct fields) b := by
  refine withinLimits_iff.mpr ⟨nofun, fun k ct hct => ?_⟩
  obtain ⟨f, hf, rfl⟩ := mem_map.mp (mem_of_getElem? hct)
  obtain ⟨t, ht⟩ := h f hf
  rw [ht]
  exact withinLimits_iff.mpr ⟨nofun, nofun⟩

theorem narrowSchema_within (b : Builder) : WithinLimits (.struct (buildFields narrowSchema)) b :=
  withinLimits_fixed (by simp [narrowSchema, buildFields, buildType]) b

/-- The batch after one row that is accepted and one that is not. -/
theorem batch_shows_decoded_rows_one : ∃ s batch d',
    Reaches (fun s c => some (Ledger.call strictApi .plain s c)) (.opened (.fresh narrowSchema)) s ∧
      s.decoder.finish strictApi .plain = (.ok batch, d') ∧
      Holding strictApi narrowSchema [[0, 1, 1]] batch := by
  have hrun : Reaches (fun s c => some (Ledger.call strictApi .plain s c))
      (.opened (.fresh narrowSchema)) ⟨_, [[0, 1, 1]], false, false⟩ :=
    ⟨[byteRow 1, .append [0, 9]], rfl⟩
  have hbuild : build strictApi narrowSchema = .ok (.fresh narrowSchema) := rfl
  refine ⟨_, _, _, hrun, rfl, ?_⟩
  exact (batch_shows_decoded_rows strictApi_lawful Compute.plain_lawful hbuild (by decide)
    (by decide) narrowSchema_width hrun rfl rfl).1 _ _ rfl (narrowSchema_within _)

/-- A dense union of one child. -/
abbrev denseType : DataType := .union .dense [⟨"a", .fixed .int32, true⟩] [0]

def denseSchema : Schema := [⟨"u", denseType, true⟩]

/-- A null row of it. -/
def nullRow : Call := .append [1]

/-- What a pass does for a null row of one column. -/
theorem walkRow_null {f : Field} {σ : Type} {S : Sink σ} {s c : σ}
    (hnull : S.null f.type (S.child 0 s) = .ok c) :
    walkRow S [f] s [1] = (S.rowEnd >>= fun _ => pure (S.setChild 0 c s)) [] := by
  have hread : readBytes (bitfieldBytes [f].length) [1] = .ok ([1], []) :=
    take_eq_ok.mpr ⟨by simp [bitfieldBytes], rfl⟩
  have hfs : walkFields S 0 (walkers S [f]) (nullFlags [1] [f].length) s [] =
      .ok (S.setChild 0 c s, []) := by
    show (lift (S.null f.type (S.child 0 s)) >>= fun c => pure (S.setChild 0 c s)) [] = _
    rw [hnull]
    rfl
  unfold walkRow
  rw [bind_of_ok hread, bind_of_ok hfs]

/-- A null row of one column is accepted whatever the builder has. -/
theorem append_null {f : Field} {d : BatchDecoder} (hfs : d.fields = [f]) :
    ∃ pending, d.append strictApi [1] = (.ok (), { d with
      root := Builder.setChild 0 (appendNulls f.type 1 (d.root.child 0)) d.root
      pending := pending
      rows := d.rows + 1 }) := by
  have hskip : d.skipRow [1] =
      .ok (skipSink.setChild 0 (skipSink.child 0 (d.root, d.clearPending)) (d.root, d.clearPending),
        []) := by
    unfold skipRow
    rw [hfs, walkRow_null (c := skipSink.child 0 (d.root, d.clearPending)) rfl]
    rfl
  have happ : d.appendRow strictApi [1] =
      .ok (Builder.setChild 0 (appendNulls f.type 1 (d.root.child 0)) d.root, []) := by
    unfold appendRow
    rw [hfs, walkRow_null (c := appendNulls f.type 1 (d.root.child 0)) rfl]
    rfl
  refine ⟨Pending.setChild 0 (d.clearPending.child 0) d.clearPending, ?_⟩
  unfold append
  rw [hskip]
  rw [happ]
  rfl

/-- The union and its child after `n` null rows: each has an element of its own. -/
def nullsIn (n : Nat) (o e : Buffers) : Builder :=
  .mk { o with
      length := o.length + n
      types := o.types ++ List.replicate n 0
      offsets := o.offsets ++ List.range' e.length n }
    [.mk { e with
      length := e.length + n
      valid := e.valid ++ List.replicate n false
      values := e.values ++ List.replicate (n * 4) 0 } []]

theorem appendNulls_nullsIn (n : Nat) (o e : Buffers) :
    appendNulls denseType 1 (nullsIn n o e) = nullsIn (n + 1) o e := by
  have htys : (o.types ++ replicate n 0) ++ replicate 1 0 = o.types ++ replicate (n + 1) 0 := by
    rw [append_assoc, replicate_append_replicate]
  have hoff : (o.offsets ++ range' e.length n) ++ replicate 1 (e.length + n) =
      o.offsets ++ range' e.length (n + 1) := by
    rw [append_assoc, range'_1_concat]
    rfl
  have hval : (e.valid ++ replicate n false) ++ replicate 1 false =
      e.valid ++ replicate (n + 1) false := by
    rw [append_assoc, replicate_append_replicate]
  have hvalues : (e.values ++ replicate (n * 4) 0) ++ replicate (1 * 4) 0 =
      e.values ++ replicate ((n + 1) * 4) 0 := by
    rw [append_assoc, replicate_append_replicate, Nat.add_mul]
  conv_rhs => rw [nullsIn, ← htys, ← hoff, ← hval, ← hvalues]
  rfl

theorem after_nullRows (pending : Pending) (r o e : Buffers) (rows n : Nat) : ∃ pending',
    after strictApi .plain ⟨denseSchema, .mk r [nullsIn 0 o e], pending, rows⟩
      (replicate n nullRow) = ⟨denseSchema, .mk r [nullsIn n o e], pending', rows + n⟩ := by
  induction n with
  | zero => exact ⟨pending, rfl⟩
  | succ n ih =>
    obtain ⟨pending', hafter⟩ := ih
    obtain ⟨pending'', happ⟩ := append_null
      (d := ⟨denseSchema, .mk r [nullsIn n o e], pending', rows + n⟩) rfl
    refine ⟨pending'', ?_⟩
    rw [replicate_succ', BatchDecoder.after, foldl_append]
    show ((after strictApi .plain _ _).append strictApi [1]).2 = _
    rw [hafter, happ, ← appendNulls_nullsIn]
    rfl

/-- A row with a 5, and what the union and its child have of it. -/
def fiveRow : Call := .append [0, 0, 5, 0, 0, 0]

def fiveUnion : Buffers := { length := 1, types := [0], offsets := [0] }

def fiveChild : Buffers := { length := 1, valid := [true], values := [5, 0, 0, 0] }

theorem after_fiveRow (calls : List Call) : ∃ pending,
    after strictApi .plain (.fresh denseSchema) (fiveRow :: calls) =
      after strictApi .plain
        ⟨denseSchema, .mk {} [nullsIn 0 fiveUnion fiveChild], pending, 1⟩ calls :=
  ⟨_, rfl⟩

theorem valueAt_nullsIn {n : Nat} (hpos : 0 < n) (h : (int32 n).toNat? = some 0) :
    (Arrow.finish denseType (nullsIn n fiveUnion fiveChild)).valueAt denseType n =
      .union 0 (.fixed (FixedValue.ofBytes .int32 [5, 0, 0, 0])) := by
  have hcode : ([0] ++ replicate n 0 : List UInt8)[n]? = some 0 := by
    rw [← replicate_one, replicate_append_replicate, getElem?_replicate_of_lt (by omega)]
  have hoff : ([0] ++ range' 1 n)[n]? = some n := by
    rw [getElem?_append_right hpos, length_singleton, List.getElem?_range' (by omega)]
    exact congrArg some (by omega)
  have hslot : ArrayData.unionSlot [0]
      (Arrow.finish denseType (nullsIn n fiveUnion fiveChild)) n = _ :=
    unionSlot_dense (g := int32) rfl hcode hoff fun _ _ _ => h
  rw [ArrayData.valueAt, hslot]
  rfl

/-- A null row of the union is decoded as null and always accepted. When `2 ^ 32` of them are
behind a row with a 5, the last is stored at the offset of the first: it reads as that 5. -/
theorem nullRows_read_first_row : decodeRow strictApi denseSchema [1] = .ok [.null] ∧
    ∃ d, d = after strictApi .plain (.fresh denseSchema)
        (fiveRow :: List.replicate (2 ^ 32) nullRow) ∧ d.rows = 1 + 2 ^ 32 ∧
      ∃ batch d' column, d.finish strictApi .plain = (.ok batch, d') ∧ batch.columns = [column] ∧
        column.valueAt denseType (2 ^ 32) =
          .union 0 (.fixed (FixedValue.ofBytes .int32 [5, 0, 0, 0])) := by
  obtain ⟨pending, hfirst⟩ := after_fiveRow (replicate (2 ^ 32) nullRow)
  obtain ⟨pending', hafter⟩ := after_nullRows pending {} fiveUnion fiveChild 1 (2 ^ 32)
  refine ⟨rfl, _, (hfirst.trans hafter).symm, rfl, _, _, _, rfl, rfl, ?_⟩
  exact valueAt_nullsIn (by decide) (by decide)

/-- **Alignment.** After any calls, and unless a builder failed, a batch that is returned from
builders within their limits holds the rows accepted since the last `Finish` exactly when none
has thrown with rows pending since the last one returned. -/
theorem batch_holding_iff {A : Api} {K : Compute} {schema : Schema} (hA : A.Lawful) (hK : K.Lawful)
    {d₀ : BatchDecoder} (hbuild : build A schema = .ok d₀)
    (hcodes : ∀ f ∈ schema, codesMatch f.type = true)
    (hsizes : ∀ f ∈ schema, sizesFit f.type = true)
    (hwidth : ∀ f ∈ schema, ¬Holds ZeroWidth (buildType f.type)) {s : Ledger}
    (hrun : Reaches (fun s c => some (Ledger.call A K s c)) (.opened d₀) s)
    (hintact : s.broken = false)
    (hlimits : WithinLimits (.struct (buildFields schema)) s.decoder.root) {batch : RecordBatch}
    {d' : BatchDecoder} (hfinish : s.decoder.finish A K = (.ok batch, d')) :
    Holding A schema s.bufs batch ↔ s.lost = false := by
  obtain ⟨rfl, hschema⟩ := build_eq_ok hbuild hcodes
  have hkept := Ledger.kept hschema hwidth hsizes hrun
  constructor
  · intro hholding
    obtain ⟨rows, hrows, hshows⟩ := hholding
    cases hlost : s.lost with
    | false => rfl
    | true =>
      -- the batch counts the lost rows as well
      have hcolumns := hkept.columns
      rw [← hkept.schema_eq] at hcolumns
      have hbehind := hkept.behind hlost
      rw [hrows.length_eq, ← hshows.numRows, (finish_eq_ok hcolumns hfinish).2.1] at hbehind
      exact absurd hbehind (Nat.lt_irrefl _)
  · intro hlost
    exact hkept.holding hA hK hschema hsizes hlost hintact hlimits hfinish

/-- The equivalence after a row, with no `Finish` before it. -/
theorem batch_holding_one : ∃ d batch d',
    after strictApi .plain (.fresh narrowSchema) [byteRow 1] = d ∧
      d.finish strictApi .plain = (.ok batch, d') ∧
      Holding strictApi narrowSchema [[0, 1, 1]] batch := by
  have hrun : Reaches (fun s c => some (Ledger.call strictApi .plain s c))
      (.opened (.fresh narrowSchema)) ⟨_, [[0, 1, 1]], false, false⟩ := ⟨[byteRow 1], rfl⟩
  refine ⟨_, _, _, rfl, rfl, ?_⟩
  have hbuild : build strictApi narrowSchema = .ok (.fresh narrowSchema) := rfl
  exact (batch_holding_iff strictApi_lawful Compute.plain_lawful hbuild (by decide) (by decide)
    narrowSchema_width hrun rfl (narrowSchema_within _) rfl).mpr rfl

/-- 129 different values do not fit the index: `Finish` throws. One more row, and `Finish`
returns a batch of 130 rows whose first column has one. -/
theorem finish_misaligned : ((after strictApi .plain (.fresh narrowSchema)
        ((List.range 129).map byteRow)).finish strictApi .plain).1.toOption.isNone ∧
      ((after strictApi .plain (.fresh narrowSchema)
        ((List.range 129).map byteRow ++ [.finish, byteRow 7])).finish strictApi
          .plain).1.toOption.map
            (fun batch => (batch.numRows, batch.columns.map ArrayData.length)) =
        some (130, [1, 130]) := by
  decide +kernel

end Fletcher.Bridge.Batch
