import Fletcher.Arrow.BuilderReading
import Fletcher.Bridge.BatchSinks

/-!
# What the batches hold

A row that is appended becomes the next value of every column (`replay_grows`): whatever the
builders hold, they hold the row's values after it. So between two `Finish`es the columns hold
the accepted rows in order, and a batch reads back as these rows, as far as its offsets reach.

A refused row changes the scratch of the skip pass and nothing else, and the scratch is never
read before it is cleared: two decoders that differ in it answer every further call alike
(`Twins`).
-/

namespace Fletcher.Bridge.Batch

open BatchDecoder Lib Arrow Reader List
open List (Forall₂ append_assoc flatten_append flatten_singleton getElem?_map length_map
  map_append map_singleton mem_cons_self mem_map mem_singleton rel_append zipWith)

variable {f : Field} {columns : List (List Value)} {codes : List UInt8} {code : UInt8}

variable {b' b : Builder} {v : Value} {o : Buffers} {vs : List Value} {fields : List Field}
  {k : Nat}

/-! ## A value appended -/

section Grows

variable {A : Api} {t : DataType}

/-- Replaying a value of the type puts it behind what the builder holds. -/
def ReplayGrows (A : Api) (t : DataType) : Prop :=
  ∀ (v : Value) (b b' : Builder), HasType t v → v.Encodable →
    replay (appendSink A) appendLeaf t v b = .ok b' → Grows t b b' [v]

theorem slot_grows (ht : t.supported = true) (hplay : ReplayGrows A t) (hv : SlotOk t v)
    (h : replaySlot (appendSink A) t (replay (appendSink A) appendLeaf t) v b = .ok b') :
    Grows t b b' [v] := by
  unfold replaySlot at h
  obtain ⟨hslot, henc⟩ := hv
  rcases hslot with rfl | hv
  · obtain rfl := attempt_eq_ok h
    exact fill_grows ht false 1 b
  · rw [hv.isNull_eq, if_neg (by simp)] at h
    exact hplay v b b' hv henc h

/-- One after the other. -/
theorem foldlM_grows {play : Value → Builder → Except BatchError Builder} {P : Value → Prop}
    (hplay : ∀ {v b b'}, P v → play v b = .ok b' → Grows t b b' [v]) :
    ∀ {vs : List Value} {b b' : Builder}, (∀ v ∈ vs, P v) →
      vs.foldlM (fun b v => play v b) b = .ok b' → Grows t b b' vs
  | [], b, b', _, h => by
    cases h
    exact Grows.refl t b
  | v :: vs, b, b', hvs, h => by
    rw [foldlM_cons] at h
    obtain ⟨_, hhead, htail⟩ := bind_eq_ok_iff.mp h
    exact (hplay (hvs v mem_cons_self) hhead).trans
      (foldlM_grows hplay (fun w hw => hvs w (mem_cons_of_mem v hw)) htail)

theorem run_grows (ht : t.supported = true) (hplay : ReplayGrows A t) (hvs : ∀ v ∈ vs, SlotOk t v)
    (h : replayRun (appendSink A) t (replay (appendSink A) appendLeaf t) vs b = .ok b') :
    Grows t b b' vs := by
  unfold replayRun at h
  by_cases hnull : vs.all Value.isNull = true
  · rw [if_pos hnull] at h
    obtain rfl := attempt_eq_ok h
    have hvs' : vs = replicate vs.length .null := by
      rw [eq_replicate_iff]
      refine ⟨rfl, ?_⟩
      intro v hv
      have hv' := all_eq_true.mp hnull v hv
      exact Value.isNull_iff.mp hv'
    have hfill := fill_grows ht false vs.length b
    rw [filler_false, ← hvs'] at hfill
    exact hfill
  · rw [if_neg hnull] at h
    exact foldlM_grows (fun hv hstep => slot_grows ht hplay hv hstep) hvs h

theorem elements_grows (ht : t.supported = true) (hplay : ReplayGrows A t) {list : DataType}
    {c : Builder} (hvs : ∀ v ∈ vs, SlotOk t v)
    (hbeg : ∀ s, (appendSink A).listBegin list vs.length b = .ok s → s = .mk o [c])
    (h : replayElements (appendSink A) list t (replay (appendSink A) appendLeaf t) vs b = .ok b') :
    ∃ c', b' = .mk o [c'] ∧ Grows t c c' vs := by
  obtain ⟨s, hs, h⟩ := bind_eq_ok_iff.mp h
  obtain rfl := hbeg s hs
  by_cases hlen : vs.length = 0
  · rw [if_pos hlen] at h
    cases h
    rw [eq_nil_of_length_eq_zero hlen]
    exact ⟨c, rfl, Grows.refl t c⟩
  · rw [if_neg hlen] at h
    obtain ⟨c', hrun, h⟩ := bind_eq_ok_iff.mp h
    cases h
    exact ⟨c', rfl, run_grows ht hplay hvs hrun⟩

theorem entries_grows {kt vt : DataType} (hvt : vt.supported = true) (hplayk : ReplayGrows A kt)
    (hplayv : ReplayGrows A vt) {ks : List Value} {c d : Builder}
    (hks : ∀ k ∈ ks, HasType kt k ∧ k.Encodable) (hvs : ∀ v ∈ vs, SlotOk vt v)
    (h : replayEntries (appendSink A) vt (replay (appendSink A) appendLeaf kt)
      (replay (appendSink A) appendLeaf vt) ks vs (.mk o [c, d]) = .ok b') :
    ∃ c' d', b' = .mk o [c', d'] ∧ Grows kt c c' ks ∧ Grows vt d d' vs := by
  obtain ⟨c', hkeys, h⟩ := bind_eq_ok_iff.mp h
  obtain ⟨d', hits, h⟩ := bind_eq_ok_iff.mp h
  cases h
  refine ⟨c', d', rfl, ?_, ?_⟩
  · exact foldlM_grows (fun hk hstep => hplayk _ _ _ hk.1 hk.2 hstep) hks hkeys
  · exact foldlM_grows (fun hv hstep => slot_grows hvt hplayv hv hstep) hvs hits

theorem child_middle (o : Buffers) (pre : List Builder) (c : Builder) (cs : List Builder) :
    Builder.child pre.length (.mk o (pre ++ c :: cs)) = c := by
  show (pre ++ c :: cs).getD pre.length .empty = c
  rw [getD_append_right _ _ _ _ (Nat.le_refl _), Nat.sub_self]
  rfl

theorem setChild_middle (o : Buffers) (pre : List Builder) (c c' : Builder) (cs : List Builder) :
    Builder.setChild pre.length c' (.mk o (pre ++ c :: cs)) = .mk o ((pre ++ [c']) ++ cs) := by
  show Builder.mk o ((pre ++ c :: cs).set pre.length c') = _
  rw [set_append_right _ _ (Nat.le_refl _), Nat.sub_self, append_assoc]
  rfl

/-- The children of a struct, or the columns of a row, one value each. -/
theorem fields_grows : ∀ {fields : List Field} {vs : List Value}
    (pre : List Builder) {cs : List Builder} {b' : Builder},
    (∀ f ∈ fields, f.type.supported = true ∧ ReplayGrows A f.type) →
    Forall₂ (fun f => SlotOk f.type) fields vs → cs.length = fields.length →
    replayFields (appendSink A) pre.length (replayers (appendSink A) appendLeaf fields) vs
      (.mk o (pre ++ cs)) = .ok b' →
    ∃ cs', b' = .mk o (pre ++ cs') ∧ GrowsAll fields cs cs' (vs.map fun v => [v])
  | [], [], pre, cs, b', _, _, hlen, h => by
    obtain rfl : cs = [] := eq_nil_of_length_eq_zero hlen
    cases h
    exact ⟨[], rfl, growsAll_nil⟩
  | ⟨name, t, nullable⟩ :: fields, v :: vs, pre, c :: cs, b', hfs, hvs, hlen, h => by
    rw [forall₂_cons] at hvs
    obtain ⟨ht, hplay⟩ := hfs ⟨name, t, nullable⟩ mem_cons_self
    obtain ⟨c', hhead, hrest⟩ := bind_eq_ok_iff.mp h
    have hch : (appendSink A).child pre.length (.mk o (pre ++ c :: cs)) = c :=
      child_middle o pre c cs
    have hset : (appendSink A).setChild pre.length c' (.mk o (pre ++ c :: cs)) =
        .mk o ((pre ++ [c']) ++ cs) := setChild_middle o pre c c' cs
    rw [hch] at hhead
    rw [hset, show pre.length + 1 = (pre ++ [c']).length by simp] at hrest
    obtain ⟨cs', rfl, hall⟩ := fields_grows _ (fun f hf => hfs f (mem_cons_of_mem _ hf))
      hvs.2 (Nat.succ.inj hlen) hrest
    refine ⟨c' :: cs', by rw [append_assoc]; rfl, ?_⟩
    exact growsAll_cons (slot_grows ht hplay hvs.1 hhead) hall

theorem leaf_grows (hleaf : isLeaf t = true) (hv : HasType t v)
    (h : appendLeaf t v b = .ok b') : Grows t b b' [v] := by
  obtain ⟨o, _⟩ := b
  cases t with
  | bool =>
    cases v with
    | bool x =>
      cases h
      refine grows_bool (addsSlots_one rfl rfl rfl) ?_ (.cons (.inr rfl) .nil)
      cases x <;> rfl
    | _ => cases hv
  | fixed ft =>
    cases v with
    | fixed x =>
      cases h
      obtain rfl : x.type = ft := hv
      refine grows_fixed [x.repr] (addsSlots_one rfl rfl rfl) ?_ ?_ (.cons (.inr ?_) .nil)
      · simp
      · intro c hc
        rw [mem_singleton.mp hc]
        exact x.size_eq
      · rw [FixedValue.ofBytes_self]
    | _ => cases hv
  | var vt =>
    cases v with
    | binary vt' data =>
      obtain rfl : vt' = vt := hv
      by_cases hview : vt'.isView = true
      · unfold appendLeaf Builder.appendBinary at h
        dsimp only at h
        rw [if_pos hview] at h
        cases h
        exact grows_view hview [data] (addsSlots_one rfl rfl rfl) rfl (.cons (.inr rfl) .nil)
      · unfold appendLeaf Builder.appendBinary at h
        dsimp only at h
        rw [if_neg hview] at h
        cases h
        refine grows_binary hview [data] (addsSlots_one rfl rfl rfl) ?_ ?_ (.cons (.inr rfl) .nil)
        · simp
        · intro _ hoff hvalues
          rw [starts_concat, ← hoff, ← hvalues]
          rfl
    | _ => cases hv
  | _ => cases hleaf

/-- What the inactive children of a sparse union are given. -/
def othersNull (active : Nat) : Nat → List Field → List (List Value)
  | _, [] => []
  | k, _ :: fs => (if k = active then [] else [.null]) :: othersNull active (k + 1) fs

theorem othersNull_length (active : Nat) : ∀ (fields : List Field) (k : Nat),
    (othersNull active k fields).length = fields.length
  | [], _ => rfl
  | _ :: fs, k => congrArg (· + 1) (othersNull_length active fs (k + 1))

theorem othersNull_getElem? {active : Nat} : ∀ {fields : List Field} {k i : Nat},
    i < fields.length → (othersNull active k fields)[i]? =
      some (if k + i = active then [] else [.null])
  | _ :: _, k, 0, _ => rfl
  | _ :: fs, k, i + 1, h => by
    rw [othersNull, getElem?_cons_succ, othersNull_getElem? (Nat.lt_of_succ_lt_succ h),
      Nat.add_right_comm k 1 i]
    rfl

theorem growsAll_nullOthers {active : Nat} :
    ∀ {fields : List Field} {cs cs' : List Builder} {k : Nat},
    (∀ f ∈ fields, f.type.supported = true) → nullOthers A active k fields cs = .ok cs' →
    GrowsAll fields cs cs' (othersNull active k fields)
  | [], [], _, _, _, h => by
    cases h
    exact growsAll_nil
  | [], _ :: _, _, _, _, _ => ⟨rfl, fun columns h => by cases columns <;> exact h.elim⟩
  | _ :: _, [], _, _, _, _ => growsAll_of_short (othersNull_length _ _ _)
  | ⟨name, t, nullable⟩ :: fs, c :: cs, _, k, hfs, h => by
    obtain ⟨c', hc, h⟩ := bind_eq_ok_iff.mp h
    obtain ⟨_, hcs, h⟩ := bind_eq_ok_iff.mp h
    cases h
    refine growsAll_cons ?_ (growsAll_nullOthers (fun f hf => hfs f (mem_cons_of_mem _ hf)) hcs)
    by_cases hk : k = active
    · rw [if_pos hk] at hc ⊢
      cases hc
      exact Grows.refl t c
    · rw [if_neg hk] at hc ⊢
      obtain rfl := attempt_eq_ok hc
      exact fill_grows (hfs ⟨name, t, nullable⟩ mem_cons_self) false 1 c

/-- The active child of a union takes the value. -/
theorem child_grows
    {cs cs₁ : List Builder} {wss : List (List Value)}
    (hplay : ReplayGrows A f.type) (hf : fields[k]? = some f) (hv : HasType f.type v)
    (henc : v.Encodable) (hall : GrowsAll fields cs cs₁ wss) (hws : wss[k]? = some [])
    (hcols : StoresAll fields cs columns)
    (h : replayChild (appendSink A) (replayers (appendSink A) appendLeaf fields) k v (.mk o cs₁) =
      .ok b') :
    ∃ cs', b' = .mk o cs' ∧ GrowsAll fields cs cs' (wss.set k [v]) := by
  unfold replayChild at h
  rw [replayers_eq_map, getElem?_map, hf] at h
  obtain ⟨c', hrun, h⟩ := bind_eq_ok_iff.mp h
  cases h
  obtain ⟨c, -, hc, -, -⟩ := storesAll_getElem? (hall.2 columns hcols) hf
  have hch : (appendSink A).child k (.mk o cs₁) = c := getD_of_getElem? hc
  have hpla : replay (appendSink A) appendLeaf f.type v c = .ok c' := by
    rw [← hch, ← hrun]
    exact (if_neg (by simp [hv.isNull_eq])).symm
  exact ⟨_, rfl, hall.trans_set hf hc hws (hplay v c c' hv henc hpla)⟩

theorem unionValue_active {wss : List (List Value)}
    (hk : childId codes code = some k) (hlt : k < wss.length) (hv : v.isNull = false) :
    unionValue codes (wss.set k [v]) code 0 = .union code v := by
  unfold unionValue
  rw [hk]
  dsimp only
  rw [getElem?_set_self hlt]
  exact Value.underCode_of_not_null hv

theorem union_grows {mode : UnionMode} (hfs : ∀ f ∈ fields, f.type.supported = true)
    (hplay : ReplayGrows A f.type) (hk : childId codes code = some k) (hf : fields[k]? = some f)
    (hv : HasType f.type v) (henc : v.Encodable)
    (h : ((appendSink A).unionBegin mode fields code k b >>= fun s =>
      replayChild (appendSink A) (replayers (appendSink A) appendLeaf fields) k v s) = .ok b') :
    Grows (.union mode fields codes) b b' [.union code v] := by
  intro vs hvs
  obtain ⟨o, cs⟩ := b
  have hsto := hvs
  have hlt := (List.getElem?_eq_some_iff.mp hf).1
  obtain ⟨_, hbeg, h⟩ := bind_eq_ok_iff.mp h
  cases mode with
  | sparse =>
    obtain ⟨-, -, _, hcols, -, -⟩ := hsto
    obtain ⟨_, hnull, rfl⟩ := sparseBegin_eq_ok hbeg
    have hlen := othersNull_length k fields 0
    have hnone : (othersNull k 0 fields)[k]? = some [] := by
      rw [othersNull_getElem? hlt, Nat.zero_add, if_pos rfl]
    obtain ⟨_, rfl, hall⟩ :=
      child_grows hplay hf hv henc (growsAll_nullOthers hfs hnull) hnone hcols h
    refine grows_sparse code hall ?_ rfl rfl (forall_getElem?_singleton.mpr
      (unionValue_active hk (by omega) hv.isNull_eq).symm) vs hvs
    -- one value in each column
    intro _ hus
    obtain ⟨i, hi⟩ := List.mem_iff_getElem?.mp hus
    rw [List.getElem?_set] at hi
    split at hi
    · split at hi
      · cases hi
        rfl
      · cases hi
    · next hne =>
      have hil : i < fields.length := by
        rw [← hlen]
        exact (List.getElem?_eq_some_iff.mp hi).1
      rw [othersNull_getElem? hil, Nat.zero_add, if_neg fun heq => hne heq.symm] at hi
      cases hi
      rfl
  | dense =>
    obtain ⟨-, -, -, _, hcols, -⟩ := hsto
    obtain rfl := attempt_eq_ok hbeg
    obtain ⟨_, rfl, hall⟩ := child_grows hplay hf hv henc growsAll_refl
      (List.getElem?_replicate_of_lt hlt) hcols h
    refine grows_dense code _ hall rfl rfl rfl ?_ ?_ ?_ vs hvs
    · intro j c hj hc
      rw [hk] at hj
      cases hj
      rw [getD_of_getElem? hc]
    · intro j _ hj hus
      rw [hk] at hj
      cases hj
      rw [List.getElem?_set_self (by simpa using hlt)] at hus
      cases hus
      exact List.cons_ne_nil _ _
    · intro w hw
      rw [mem_singleton.mp hw]
      exact (unionValue_active hk (by simpa using hlt) hv.isNull_eq).symm

/-- **A value appended** is the next value of its builder. -/
theorem replay_grows (ht : t.supported = true) : ReplayGrows A t := by
  intro v b b' hty henc
  revert ht b b'
  refine carried_induction ?bool ?fixed ?var ?struct ?list ?fixedSizeList ?map ?union ?dictionary
    t v hty henc
  case bool =>
    intro x _ b b' h
    exact leaf_grows rfl trivial h
  case fixed =>
    intro x _ b b' h
    exact leaf_grows rfl rfl h
  case var =>
    intro t data _ _ b b' h
    exact leaf_grows rfl rfl h
  case struct =>
    intro fields vs ih hvs ht b b' h us hus
    rw [DataType.supported, fieldsSupported_iff] at ht
    obtain ⟨o, cs⟩ := b
    have hsto := hus
    obtain ⟨-, _, hcols, -, -⟩ := hsto
    have hcs := (storesAll_lengths hcols).1
    obtain ⟨_, hbeg, h⟩ := bind_eq_ok_iff.mp h
    obtain rfl := attempt_eq_ok hbeg
    obtain ⟨_, rfl, hall⟩ := fields_grows (o := o.addSlots 1 true) []
      (fun f hf => ⟨ht f hf, fun v b b' hv he => ih f hf v hv he (ht f hf) b b'⟩) hvs hcs h
    refine grows_struct hall ?_ (addsSlots_one rfl rfl rfl)
      (forall_getElem?_singleton.mpr (.inr ?_)) us hus
    · intro _ hws
      obtain ⟨w, -, rfl⟩ := mem_map.mp hws
      rfl
    · rw [map_map]
      show Value.struct vs = .struct (vs.map fun v => v)
      rw [map_id']
  case list =>
    intro _ item vs ih _ hvs ht b b' h us hus
    obtain ⟨o, cs⟩ := b
    obtain ⟨hmks, c, pieces, rfl, hch, hoff, hsl⟩ := hus
    obtain ⟨c', rfl, hgr⟩ := elements_grows (t := item.type) ht
      (fun v b b' hv he => ih v hv he ht b b') hvs
      (o := (o.addSlots 1 true).addOffsets 1 c.length) (c := c) (fun _ => listBegin_eq_ok) h
    refine ⟨marks_append hmks (addsSlots_one rfl rfl rfl), c', pieces ++ [vs], rfl, ?_, ?_,
      rel_append hsl (.cons (.inr rfl) .nil)⟩
    · rw [flatten_append, flatten_singleton]
      exact hgr _ hch
    · rw [starts_concat, ← stores_length hch, ← hoff]
      rfl
  case fixedSizeList =>
    intro item vs ih hvs ht b b' h us hus
    obtain ⟨o, cs⟩ := b
    obtain ⟨hmks, c, pieces, rfl, hch, hwid, hsl⟩ := hus
    obtain ⟨c', rfl, hgr⟩ := elements_grows (t := item.type) ht
      (fun v b b' hv he => ih v hv he ht b b') hvs
      (o := o.addSlots 1 true) (c := c) (fun _ hbeg => by exact attempt_eq_ok hbeg) h
    refine ⟨marks_append hmks (addsSlots_one rfl rfl rfl), c', pieces ++ [vs], rfl, ?_, ?_,
      rel_append hsl (.cons (.inr rfl) .nil)⟩
    · rw [flatten_append, flatten_singleton]
      exact hgr _ hch
    · intro p hp
      rcases mem_append.mp hp with hp | hp
      · exact hwid p hp
      · rw [mem_singleton.mp hp]
  case map =>
    intro key item _ ks vs ihk ihv hlen _ hks hvs ht b b' h us hus
    rw [DataType.supported, Bool.and_eq_true] at ht
    obtain ⟨o, cs⟩ := b
    obtain ⟨hmks, c, d, pieces, rfl, hkeys, hits, hoff, hprs, hsl⟩ := hus
    obtain ⟨_, hbeg, h⟩ := bind_eq_ok_iff.mp h
    obtain rfl := attempt_eq_ok hbeg
    obtain ⟨c', d', rfl, hc', hd'⟩ := entries_grows ht.2
      (fun v b b' hv he => ihk v hv he ht.1 b b') (fun v b b' hv he => ihv v hv he ht.2 b b')
        hks hvs
      (o := (o.addSlots 1 true).addOffsets 1 c.length) (c := c) (d := d) h
    refine ⟨marks_append hmks (addsSlots_one rfl rfl rfl), c', d', pieces ++ [(ks, vs)], rfl, ?_,
      ?_, ?_, ?_, rel_append hsl (.cons (.inr rfl) .nil)⟩
    · rw [map_append, flatten_append, map_singleton, flatten_singleton]
      exact hc' _ hkeys
    · rw [map_append, flatten_append, map_singleton, flatten_singleton]
      exact hd' _ hits
    · rw [map_append, map_singleton, starts_concat, ← stores_length hkeys, ← hoff]
      rfl
    · intro p hp
      rcases mem_append.mp hp with hp | hp
      · exact hprs p hp
      · rw [mem_singleton.mp hp]
        exact hlen
  case union =>
    intro mode fields _ _ k f v ih hmem hk hf hv he ht b b' h
    rw [DataType.supported, Bool.and_eq_true, fieldsSupported_iff] at ht
    have hplay : ReplayGrows A f.type := fun v b b' hv he => ih v hv he (ht.2 f hmem) b b'
    rw [replay, hk] at h
    exact union_grows ht.2 hplay hk hf hv he h
  case dictionary =>
    intro _ _ _ _ _ _ _ ht
    cases ht

end Grows

/-! ## The rows in the builders -/

/-- Rows read downwards, one list a column. -/
def columnsOf (n : Nat) (rows : List Row) : List (List Value) :=
  (range n).map fun i => rows.map (·.getD i .null)

theorem columnsOf_length (n : Nat) (rows : List Row) : (columnsOf n rows).length = n := by
  simp [columnsOf]

theorem columnsOf_getElem? {n i : Nat} (h : i < n) (rows : List Row) :
    (columnsOf n rows)[i]? = some (rows.map (·.getD i .null)) := by
  simp [columnsOf, h]

theorem columnsOf_nil (n : Nat) : columnsOf n [] = replicate n [] := by
  rw [eq_replicate_iff]
  refine ⟨columnsOf_length n [], ?_⟩
  intro _ hcol
  obtain ⟨i, -, rfl⟩ := mem_map.mp hcol
  rfl

theorem columnsOf_concat {n : Nat} (rows : List Row) {row : Row} (h : row.length = n) :
    zipWith (· ++ ·) (columnsOf n rows) (row.map fun v => [v]) = columnsOf n (rows ++ [row]) := by
  refine ext_getElem? ?_
  intro i
  rw [getElem?_zipWith, getElem?_map]
  by_cases hi : i < n
  · rw [columnsOf_getElem? hi, columnsOf_getElem? hi,
      show row[i]? = some (row.getD i .null) from getElem?_getD (by omega), map_append]
    rfl
  · have hnone : ∀ rows : List Row, (columnsOf n rows)[i]? = none := by
      intro rows
      exact getElem?_eq_none (by rw [columnsOf_length]; omega)
    rw [hnone, hnone]

/-- The builders hold these rows, and no others. -/
structure Carries (d : BatchDecoder) (rows : List Row) : Prop where
  count : d.rows = rows.length
  stored : StoresAll d.fields d.root.children (columnsOf d.fields.length rows)

theorem storesAll_fresh {schema : Schema} (h : Buildable schema) :
    StoresAll (buildFields schema) (makeBuilders (buildFields schema))
      (columnsOf (buildFields schema).length []) := by
  rw [columnsOf_nil]
  refine storesAll_makeBuilders ?_
  intro f hf
  obtain ⟨g, hg, rfl⟩ := mem_map.mp hf
  exact stores_makeBuilder (h g hg).supported

theorem carries_fresh {schema : Schema} (h : Buildable schema) : Carries (.fresh schema) [] :=
  ⟨rfl, storesAll_fresh h⟩

section Append

variable {A : Api} {d d' : BatchDecoder} {buf : Bytes} {rows : List Row}

/-- A row of the grammar, slot by slot. -/
theorem slotOk_buildFields {schema : Schema} (hsizes : ∀ f ∈ schema, sizesFit f.type = true)
    {row : Row} (h : parseRow schema buf = some row) :
    Forall₂ (fun f => SlotOk f.type) (buildFields schema) row := by
  rw [buildFields, forall₂_map_left_iff]
  refine (slotOk_of_parseRow (fun f hf => fixedSizesFit_of_sizesFit (hsizes f hf)) h).imp ?_
  intro f v hv
  cases hf : f.type <;> (rw [hf] at hv; exact hv)

theorem width_of_parseRow {schema : Schema} (hsizes : ∀ f ∈ schema, sizesFit f.type = true)
    {bufs : List Bytes} (h : Forall₂ (fun buf row => parseRow schema buf = some row) bufs rows) :
    ∀ row ∈ rows, row.length = schema.length := by
  intro row hrow
  obtain ⟨j, hj⟩ := mem_iff_getElem?.mp hrow
  obtain ⟨buf, -, hpar⟩ := forall₂_getElem?_right h hj
  have hsl := slotOk_buildFields hsizes hpar
  rw [← hsl.length_eq, buildFields, length_map]

/-- An accepted row puts one value under every column. -/
theorem storesAll_append (h : Regular d) (hsizes : ∀ f ∈ d.schema, sizesFit f.type = true)
    (hcols : StoresAll d.fields d.root.children columns) (happ : d.append A buf = (.ok (), d')) :
    ∃ row, parseRow d.schema buf = some row ∧ row.length = d.fields.length ∧ d'.rows = d.rows + 1 ∧
      StoresAll d'.fields d'.root.children
        (zipWith (· ++ ·) columns (row.map fun v => [v])) := by
  obtain ⟨row, _, root, hrow, -, hrep, rfl⟩ := append_eq_ok h happ
  have hsl := slotOk_buildFields hsizes hrow
  refine ⟨row, hrow, hsl.length_eq.symm, rfl, ?_⟩
  cases hroot : d.root with
  | mk o _ =>
    rw [hroot] at hrep hcols
    obtain ⟨_, rfl, hall⟩ := fields_grows []
      (fun f hf => ⟨(h.fields f hf).1, replay_grows (h.fields f hf).1⟩) hsl
      (storesAll_lengths hcols).1 hrep
    exact hall.2 _ hcols

/-- **An accepted row** is the next of the rows the builders hold. -/
theorem carries_append (h : Regular d) (hsizes : ∀ f ∈ d.schema, sizesFit f.type = true)
    (hrows : Carries d rows) (happ : d.append A buf = (.ok (), d')) :
    ∃ row, parseRow d.schema buf = some row ∧ Carries d' (rows ++ [row]) := by
  obtain ⟨row, hrow, hlen, hcnt, hsto⟩ := storesAll_append h hsizes hrows.stored happ
  have hfs : d'.fields = d.fields := by
    have hsch := append_schema A d buf
    rw [happ] at hsch
    rw [fields, hsch]
    rfl
  refine ⟨row, hrow, ?_, ?_⟩
  · rw [hcnt, hrows.count, length_append]
    rfl
  · rw [columnsOf_concat rows hlen] at hsto
    rw [hfs] at hsto ⊢
    exact hsto

end Append

/-! ## `Finish` -/

/-- What the compute kernels document: a result has the length and the values of its input,
read through the dictionary. -/
structure Compute.Lawful (K : Compute) : Prop where
  dictionaryEncode_ok : ∀ t a e, K.dictionaryEncode t a = .ok e →
    e.length = a.length ∧ ∀ j < a.length, e.valueAt (encodedType t) j = a.valueAt t j
  cast_ok : ∀ index t ordered a e,
    K.cast (encodedType t) (.dictionary index t ordered) a = .ok e →
      e.length = a.length ∧ ∀ j < a.length,
        e.valueAt (.dictionary index t ordered) j = a.valueAt (encodedType t) j

theorem Compute.plain_lawful : Compute.plain.Lawful where
  dictionaryEncode_ok := by
    intro t a e h
    cases h
    refine ⟨rfl, ?_⟩
    intro j hj
    show a.valueAt t ((range a.length).getD (0 + j) 0) = a.valueAt t j
    rw [Nat.zero_add, getD_of_getElem? (getElem?_range hj)]
  cast_ok := by
    intro _ t _ a e h
    cases a with
    | dictionary s _ _ =>
      unfold Compute.plain at h
      dsimp only at h
      split at h
      · cases h
        exact ⟨rfl, fun j _ => rfl⟩
      · cases h
    | _ => cases h

section Finish

variable {A : Api} {K : Compute}

theorem mapError_eq_ok {ε ε' α : Type} {x : Except ε α} {f : ε → ε'} {a : α}
    (h : x.mapError f = .ok a) : x = .ok a := by
  cases x with
  | error e => cases h
  | ok b =>
    cases h
    rfl

/-- The type of the indices does not show in the values. -/
theorem valueAt_index (index : FixedType) (t : DataType) (ordered : Bool) (a : ArrayData)
    (j : Nat) :
    a.valueAt (.dictionary index t ordered) j = a.valueAt (encodedType t) j := by
  cases a with
  | _ => rfl

/-- A column that was folded again reads as it did. -/
theorem refold_reads (hK : K.Lawful) {t : DataType} {values column : ArrayData}
    (h : refold A K t values = .ok column) : column.length = values.length ∧
      ∀ j < values.length, column.valueAt t j = values.valueAt (buildType t) j := by
  cases t with
  | dictionary index value ordered =>
    obtain ⟨_, henc, h⟩ := bind_eq_ok_iff.mp h
    obtain ⟨hlen, hvalues⟩ := hK.dictionaryEncode_ok _ _ _ (mapError_eq_ok henc)
    by_cases hequ : A.equals (encodedType value) (.dictionary index value ordered) = true
    · rw [if_pos hequ] at h
      cases h
      refine ⟨hlen, ?_⟩
      intro j hj
      rw [valueAt_index]
      exact hvalues j hj
    · rw [if_neg hequ] at h
      obtain ⟨hlen', hvalues'⟩ := hK.cast_ok _ _ _ _ _ (mapError_eq_ok h)
      refine ⟨hlen'.trans hlen, ?_⟩
      intro j hj
      rw [hvalues' j (by omega), hvalues j hj]
      rfl
  | _ =>
    cases h
    exact ⟨rfl, fun j _ => rfl⟩

theorem finish_length (t : DataType) (b : Builder) : (Arrow.finish t b).length = b.length := by
  obtain ⟨o, _⟩ := b
  cases t with
  | var _ =>
    unfold Arrow.finish
    split <;> rfl
  | union mode _ _ => cases mode <;> rfl
  | _ => rfl

/-- The columns of a `Finish` that returns, and the empty builders it leaves. -/
theorem finishColumns_eq_ok : ∀ {fs : List Field} (pre : List Builder)
    {cs : List Builder} {columns : List ArrayData} {root : Builder}, cs.length = fs.length →
    finishColumns A K fs pre.length (.mk o (pre ++ cs)) = (.ok columns, root) →
    root = .mk o (pre ++ makeBuilders (buildFields fs)) ∧
      Forall₂ (fun (p : Field × Builder) column =>
        refold A K p.1.type (Arrow.finish (buildType p.1.type) p.2) = .ok column) (fs.zip cs)
          columns
  | [], pre, cs, columns, root, hlen, h => by
    obtain rfl : cs = [] := eq_nil_of_length_eq_zero hlen
    cases h
    exact ⟨rfl, .nil⟩
  | f :: fs, pre, c :: cs, columns, root, hlen, h => by
    rw [finishColumns, child_middle] at h
    split at h
    · cases h
    rw [setChild_middle] at h
    dsimp only at h
    cases hfold : refold A K f.type (Arrow.finish (buildType f.type) c) with
    | error e =>
      rw [hfold] at h
      cases h
    | ok column =>
      rw [hfold] at h
      rw [show pre.length + 1 = (pre ++ [makeBuilder (buildType f.type)]).length by simp] at h
      cases hrest : finishColumns A K fs (pre ++ [makeBuilder (buildType f.type)]).length
          (.mk o ((pre ++ [makeBuilder (buildType f.type)]) ++ cs)) with
      | mk answer _ =>
        rw [hrest] at h
        cases answer with
        | error e => cases h
        | ok _ =>
          cases h
          obtain ⟨rfl, hcols⟩ := finishColumns_eq_ok _ (Nat.succ.inj hlen) hrest
          refine ⟨?_, .cons hfold hcols⟩
          rw [append_assoc]
          rfl

theorem fields_getElem? {d : BatchDecoder} {i : Nat} (hf : d.schema[i]? = some f) :
    d.fields[i]? = some ⟨f.name, buildType f.type, f.nullable⟩ := by
  rw [fields, buildFields, getElem?_map, hf]
  rfl

/-- What a batch of these rows looks like. -/
structure Shows (schema : Schema) (rows : List Row) (batch : RecordBatch) : Prop where
  schema_eq : batch.schema = schema
  numRows : batch.numRows = rows.length
  width : batch.columns.length = schema.length
  columns : ∀ (i : Nat) (f : Field) (column : ArrayData), schema[i]? = some f →
    batch.columns[i]? = some column → column.length = rows.length ∧
      ∀ (j : Nat) (row : Row), rows[j]? = some row → row[i]? = some (column.valueAt f.type j)

/-- What a `Finish` that returns does, whatever the columns hold. -/
theorem finish_eq_ok {d d' : BatchDecoder} {batch : RecordBatch}
    (hcs : d.root.children.length = d.schema.length) (hfin : d.finish A K = (.ok batch, d')) :
    batch.schema = d.schema ∧ batch.numRows = d.rows ∧
      (∃ o, d' = { d with root := .mk o (makeBuilders d.fields), rows := 0 }) ∧
      Forall₂ (fun (p : Field × Builder) column =>
        refold A K p.1.type (Arrow.finish (buildType p.1.type) p.2) = .ok column)
        (d.schema.zip d.root.children) batch.columns := by
  unfold BatchDecoder.finish at hfin
  cases hroot : d.root with
  | mk o cs =>
    rw [hroot] at hfin hcs
    cases hrun : finishColumns A K d.schema 0 (.mk o cs) with
    | mk answer root =>
      rw [hrun] at hfin
      cases answer with
      | error e => cases hfin
      | ok _ =>
        cases hfin
        obtain ⟨rfl, hcols⟩ := finishColumns_eq_ok [] hcs hrun
        exact ⟨rfl, rfl, ⟨o, rfl⟩, hcols⟩

/-- The columns of a batch read as the builders' values, whether or not they line up. -/
theorem finish_columns (hK : K.Lawful) {d d' : BatchDecoder} {batch : RecordBatch}
    (hlim : WithinLimits (.struct d.fields) d.root)
    (hcols : StoresAll d.fields d.root.children columns) (hfin : d.finish A K = (.ok batch, d')) :
    batch.columns.length = d.schema.length ∧
      ∀ (i : Nat) (f : Field) (column : ArrayData) (values : List Value), d.schema[i]? = some f →
        batch.columns[i]? = some column → columns[i]? = some values →
          column.length = values.length ∧
            ∀ (j : Nat) (v : Value), values[j]? = some v → column.valueAt f.type j = v := by
  have hcs : d.root.children.length = d.schema.length :=
    (storesAll_lengths hcols).1.trans (length_map _)
  obtain ⟨-, -, -, harr⟩ := finish_eq_ok hcs hfin
  refine ⟨?_, ?_⟩
  · rw [← harr.length_eq, length_zip, hcs, Nat.min_self]
  · intro i f column values hf hcol hvalues
    obtain ⟨p, hp, hfold⟩ := forall₂_getElem?_right harr hcol
    obtain ⟨g, c⟩ := p
    rw [getElem?_zip_eq_some, hf] at hp
    obtain ⟨hg, hc⟩ := hp
    rw [Option.some.injEq] at hg
    subst hg
    have hbld := fields_getElem? hf
    obtain ⟨_, _, hc', hvalues', hsto⟩ := storesAll_getElem? hcols hbld
    rw [hc] at hc'
    cases hc'
    rw [hvalues] at hvalues'
    cases hvalues'
    dsimp only at hfold
    obtain ⟨hlen, hread⟩ := refold_reads hK hfold
    have hcnt : (Arrow.finish (buildType f.type) c).length = values.length := by
      rw [finish_length, stores_length hsto]
    refine ⟨hlen.trans hcnt, ?_⟩
    intro j v hv
    have hj := (List.getElem?_eq_some_iff.mp hv).1
    rw [hread j (by omega)]
    exact valueAt_finish (hlim.child (childTypes_getElem? hbld) hc) hsto hv

/-- **A batch** shows the rows the builders held. -/
theorem carries_finish (hK : K.Lawful) {d d' : BatchDecoder} {rows : List Row} {batch : RecordBatch}
    (hrows : Carries d rows) (hlim : WithinLimits (.struct d.fields) d.root)
    (hwid : ∀ row ∈ rows, row.length = d.schema.length)
    (hfin : d.finish A K = (.ok batch, d')) : Shows d.schema rows batch := by
  have hlen : d.fields.length = d.schema.length := length_map _
  obtain ⟨hsch, hcnt, -, -⟩ := finish_eq_ok ((storesAll_lengths hrows.stored).1.trans hlen) hfin
  obtain ⟨hcols, hread⟩ := finish_columns hK hlim hrows.stored hfin
  refine ⟨hsch, hcnt.trans hrows.count, hcols, ?_⟩
  intro i f column hf hcol
  have hi := (List.getElem?_eq_some_iff.mp hf).1
  obtain ⟨hleng, hvalues⟩ := hread i f column _ hf hcol (columnsOf_getElem? (by omega) rows)
  rw [length_map] at hleng
  refine ⟨hleng, ?_⟩
  intro j row hrow
  have hwide := hwid row (List.mem_of_getElem? hrow)
  have hsto : (rows.map (·.getD i .null))[j]? = some (row.getD i .null) := by
    rw [getElem?_map, hrow]
    rfl
  rw [hvalues j _ hsto]
  exact getElem?_getD (by omega)

end Finish

/-! ## The scratch -/

/-- Decoders that differ at most in scratch the next `Append` clears. -/
structure Twins (d e : BatchDecoder) : Prop where
  schema : d.schema = e.schema
  root : d.root = e.root
  rows : d.rows = e.rows
  pending : d.clearPending = e.clearPending

section Twins

variable {A : Api} {K : Compute} {d e : BatchDecoder}

theorem twins_append (h : Twins d e) (buf : Bytes) :
    (d.append A buf).1 = (e.append A buf).1 ∧ Twins (d.append A buf).2 (e.append A buf).2 := by
  obtain ⟨schema, root, pending, rows⟩ := d
  obtain ⟨_, _, pending', _⟩ := e
  obtain ⟨rfl, rfl, rfl, hpen⟩ := h
  have hskip : skipRow ⟨schema, root, pending, rows⟩ =
      skipRow ⟨schema, root, pending', rows⟩ := by
    unfold skipRow
    rw [hpen]
    rfl
  have happ : appendRow A ⟨schema, root, pending, rows⟩ =
      appendRow A ⟨schema, root, pending', rows⟩ := rfl
  unfold append
  rw [hskip, happ, hpen]
  cases skipRow ⟨schema, root, pending', rows⟩ buf with
  | error e => exact ⟨rfl, rfl, rfl, rfl, rfl⟩
  | ok p =>
    cases hrun : appendRow A ⟨schema, root, pending', rows⟩ buf with
    | error e => exact ⟨rfl, rfl, rfl, rfl, rfl⟩
    | ok q => exact ⟨rfl, rfl, rfl, rfl, rfl⟩

theorem twins_finish (h : Twins d e) :
    (d.finish A K).1 = (e.finish A K).1 ∧ Twins (d.finish A K).2 (e.finish A K).2 := by
  obtain ⟨schema, root, _, _⟩ := d
  obtain ⟨_, root', _, _⟩ := e
  obtain ⟨rfl, rfl, rfl, hpen⟩ := h
  unfold BatchDecoder.finish
  cases finishColumns A K schema 0 root with
  | mk answer root' =>
    cases answer with
    | error e => exact ⟨rfl, rfl, rfl, rfl, hpen⟩
    | ok _ => exact ⟨rfl, rfl, rfl, rfl, hpen⟩

/-- Twins answer alike from then on. -/
theorem twins_outputs (h : Twins d e) (calls : List Call) :
    outputs (call A K) d calls = outputs (call A K) e calls := by
  have hstep : ∀ d e, Twins d e → ∀ c ∈ calls,
      (call A K d c).1 = (call A K e (id c)).1 ∧
        Twins (call A K d c).2 (call A K e (id c)).2 := by
    intro d e hde c _
    cases c with
    | append buf =>
      obtain ⟨hans, hnext⟩ := twins_append (A := A) hde buf
      refine ⟨?_, hnext⟩
      show (d.append A buf).1.map _ = (e.append A buf).1.map _
      rw [hans]
    | finish =>
      obtain ⟨hans, hnext⟩ := twins_finish (A := A) (K := K) hde
      refine ⟨?_, hnext⟩
      show (d.finish A K).1.map _ = (e.finish A K).1.map _
      rw [hans]
  have hsim := outputs_eq_of_simulates hstep h
  rwa [map_id] at hsim

/-- A decoder whose scratch was cleared is a twin of the one it was. -/
theorem twins_clear (d : BatchDecoder) : Twins { d with pending := d.clearPending } d := by
  refine ⟨rfl, rfl, rfl, ?_⟩
  funext path
  show (if budgetedAt (.struct d.fields) path then 0 else d.clearPending path) = d.clearPending path
  by_cases hpath : budgetedAt (.struct d.fields) path = true
  · rw [if_pos hpath]
    exact (if_pos hpath).symm
  · rw [if_neg hpath]

end Twins

end Fletcher.Bridge.Batch
