import Fletcher.Arrow.Builder
import Fletcher.Arrow.ArrayReading

/-!
# What a builder holds

`Stores t b vs`: a builder of type `t` holds exactly the values `vs`, slot after slot. It is a
recursion on the type. A list builder holds the pieces its child's values are cut into, one
piece a slot; a struct builder reads its columns across; a union builder says for each slot in
which column, and where, the value is. Of a null slot nothing is said but that it is null:
what lies in the buffers below it does not matter, only that the places add up.

`valueAt_finish` is the reading: the finished array has the values. Everything that writes to
a builder is then stated as the list it appends, and `fill_stores` is that for nulls and empty
values.
-/

namespace Fletcher.Arrow

open Lib List ArrayData

variable {v w : Value} {s : Slots} {mode : UnionMode} {children : List ArrayData} {f : Field}
  {c : Builder} {target : Option Nat}

variable {fields : List Field} {ws vs : List Value} {wss columns : List (List Value)}
  {o o' : Buffers} {cs cs' : List Builder} {i n place j : Nat} {codes : List UInt8} {t : DataType}
  {code : UInt8} {ok : Bool}

/-- The slots a builder counts and the bits that say which of them are null. -/
structure Marks (o : Buffers) (vs : List Value) : Prop where
  length : o.length = vs.length
  valid : o.valid = vs.map fun v => !v.isNull

/-- What a union slot with the code reads at a place of its column. -/
def unionValue (codes : List UInt8) (columns : List (List Value)) (code : UInt8) (place : Nat) :
    Value :=
  match childId codes code with
  | some k =>
    match columns[k]? with
    | some column => .underCode code (column.getD place .null)
    | none => .null
  | none => .null

mutual

/-- The builder holds exactly these values. -/
def Stores : DataType → Builder → List Value → Prop
  | .bool, .mk o _, vs => Marks o vs ∧ List.Forall₂ (fun x => Slot (· = .bool x)) o.bools vs
  | .fixed t, .mk o _, vs => Marks o vs ∧ ∃ chunks : List Bytes,
    o.values = chunks.flatten ∧ (∀ c ∈ chunks, c.length = t.width) ∧
      List.Forall₂ (fun c => Slot (· = .fixed (FixedValue.ofBytes t c))) chunks vs
  | .var t, .mk o _, vs => Marks o vs ∧ ∃ chunks : List Bytes,
    (if t.isView then o.views = chunks
      else o.offsets = starts chunks ∧ o.values = chunks.flatten) ∧
      List.Forall₂ (fun c => Slot (· = .binary t c)) chunks vs
  | .struct fields, .mk o cs, vs => Marks o vs ∧ ∃ columns, StoresAll fields cs columns ∧
    (∀ column ∈ columns, column.length = vs.length) ∧
      ∀ i v, vs[i]? = some v → Slot (· = .struct (columns.map (·.getD i .null))) v
  | .list _ ⟨_, t, _⟩, .mk o cs, vs => Marks o vs ∧ ∃ c pieces, cs = [c] ∧
    Stores t c pieces.flatten ∧ o.offsets = starts pieces ∧
      List.Forall₂ (fun p => Slot (· = .list p)) pieces vs
  | .fixedSizeList ⟨_, t, _⟩ size, .mk o cs, vs => Marks o vs ∧ ∃ c pieces, cs = [c] ∧
    Stores t c pieces.flatten ∧ (∀ p ∈ pieces, p.length = size) ∧
      List.Forall₂ (fun p => Slot (· = .list p)) pieces vs
  | .map ⟨_, kt, _⟩ ⟨_, vt, _⟩ _, .mk o cs, vs => Marks o vs ∧
    ∃ c d, ∃ pieces : List (List Value × List Value), cs = [c, d] ∧
      Stores kt c (pieces.map Prod.fst).flatten ∧ Stores vt d (pieces.map Prod.snd).flatten ∧
      o.offsets = starts (pieces.map Prod.fst) ∧ (∀ p ∈ pieces, p.1.length = p.2.length) ∧
      List.Forall₂ (fun p => Slot (· = .map p.1 p.2)) pieces vs
  | .union .sparse fields codes, .mk o cs, vs => o.length = vs.length ∧
    o.types.length = vs.length ∧ ∃ columns, StoresAll fields cs columns ∧
      (∀ column ∈ columns, column.length = vs.length) ∧
      ∀ i v, vs[i]? = some v → v = unionValue codes columns (o.types.getD i 0) i
  | .union .dense fields codes, .mk o cs, vs => o.length = vs.length ∧
    o.types.length = vs.length ∧ o.offsets.length = vs.length ∧
      ∃ columns, StoresAll fields cs columns ∧ ∀ i v, vs[i]? = some v →
        v = unionValue codes columns (o.types.getD i 0) (o.offsets.getD i 0) ∧
        ∀ k column, childId codes (o.types.getD i 0) = some k → columns[k]? = some column →
          o.offsets.getD i 0 < column.length
  | _, _, _ => False

/-- The same for a builder of each field's type. -/
def StoresAll : List Field → List Builder → List (List Value) → Prop
  | [], [], [] => True
  | ⟨_, t, _⟩ :: fs, c :: cs, column :: columns => Stores t c column ∧ StoresAll fs cs columns
  | _, _, _ => False

end

/-! ## Columns side by side -/

section StoresAll

theorem storesAll_getElem? : ∀ {fields : List Field} {cs : List Builder}
    {columns : List (List Value)} {k : Nat} {f : Field}, StoresAll fields cs columns →
    fields[k]? = some f → ∃ c column, cs[k]? = some c ∧ columns[k]? = some column ∧
      Stores f.type c column
  | ⟨_, _, _⟩ :: _, _ :: _, _ :: _, 0, _, h, hf => by
    cases hf
    exact ⟨_, _, rfl, rfl, h.1⟩
  | ⟨_, _, _⟩ :: _, _ :: _, _ :: _, k + 1, _, h, hf => by
    obtain ⟨c, column, hc, hcol, hsto⟩ := storesAll_getElem? (k := k) h.2 hf
    exact ⟨c, column, hc, hcol, hsto⟩

theorem storesAll_lengths : ∀ {fields : List Field} {cs : List Builder}
    {columns : List (List Value)}, StoresAll fields cs columns →
    cs.length = fields.length ∧ columns.length = fields.length
  | [], [], [], _ => ⟨rfl, rfl⟩
  | ⟨_, _, _⟩ :: _, _ :: _, _ :: _, h => by
    obtain ⟨hcs, hcols⟩ := storesAll_lengths h.2
    exact ⟨congrArg (· + 1) hcs, congrArg (· + 1) hcols⟩

/-- One column is written to. -/
theorem storesAll_set : ∀ {fields : List Field} {cs : List Builder} {columns : List (List Value)}
    {k : Nat} {f : Field} {c : Builder} {column : List Value}, StoresAll fields cs columns →
    fields[k]? = some f → Stores f.type c column →
    StoresAll fields (cs.set k c) (columns.set k column)
  | ⟨_, _, _⟩ :: _, _ :: _, _ :: _, 0, _, _, _, h, hf, hsto => by
    cases hf
    exact ⟨hsto, h.2⟩
  | ⟨_, _, _⟩ :: _, _ :: _, _ :: _, k + 1, _, _, _, h, hf, hsto =>
    ⟨h.1, storesAll_set (k := k) h.2 hf hsto⟩

end StoresAll

/-! ## Reading what is stored -/

theorem marks_isNull (h : Marks o vs) (hv : vs[i]? = some v) : o.slots.isNull i = v.isNull := by
  show (!o.valid.getD (0 + i) false) = v.isNull
  rw [h.valid, Nat.zero_add, getD_eq_getElem?_getD, getElem?_map, hv]
  simp

/-- A slot of a layout with validity bits reads its value, whatever is below a null. -/
theorem read_slot (h : Marks o vs)
    (hv : vs[i]? = some v) (hw : Slot (· = w) v) (hnull : w.isNull = false) :
    (if o.slots.isNull i then .null else w) = v := by
  rw [marks_isNull h hv]
  rcases hw with rfl | rfl
  · rfl
  · rw [hnull]
    rfl

/-- The bytes of a variable-length slot. -/
theorem getView_chunk {t : VarType} (cs : List Builder) {chunks : List Bytes}
    (h : if t.isView then o.views = chunks else o.offsets = starts chunks ∧
      o.values = chunks.flatten)
    {c : Bytes} (hc : chunks[i]? = some c) :
    (finish (.var t) (.mk o cs)).getView i = some c ∧
      (finish (.var t) (.mk o cs)).slots = o.slots := by
  unfold finish
  by_cases hview : t.isView = true
  · rw [if_pos hview] at h ⊢
    refine ⟨?_, rfl⟩
    show o.views[0 + i]? = some c
    rw [Nat.zero_add, h, hc]
  · rw [if_neg hview] at h ⊢
    have hi := (List.getElem?_eq_some_iff.mp hc).1
    refine ⟨?_, rfl⟩
    show some ((o.values.drop ((o.offsets ++ [o.values.length]).getD (0 + i) 0)).take
      ((o.offsets ++ [o.values.length]).getD (0 + i + 1) 0 -
        (o.offsets ++ [o.values.length]).getD (0 + i) 0)) = some c
    rw [h.1, h.2, Nat.zero_add, starts_getD (Nat.le_of_lt hi), starts_getD hi,
      take_succ_flatten_length hc, Nat.add_sub_cancel_left, drop_take_flatten hc]

theorem valueRange_piece {α : Type} (hs : s.offset = 0) {pieces : List (List α)}
    {p : List α} (hp : pieces[i]? = some p) :
    valueRange s (starts pieces ++ [pieces.flatten.length]) i =
      ((pieces.take i).flatten.length, p.length) := by
  have hi := (List.getElem?_eq_some_iff.mp hp).1
  unfold valueRange
  rw [hs, Nat.zero_add, starts_getD (Nat.le_of_lt hi), starts_getD hi,
    take_succ_flatten_length hp]
  dsimp only
  rw [Nat.add_sub_cancel_left]

theorem slotBytes_chunk {chunks : List Bytes} {w : Nat} {c : Bytes}
    (h : ∀ c ∈ chunks, c.length = w) (hc : chunks[i]? = some c) :
    slotBytes chunks.flatten w i = c := by
  have hi := (List.getElem?_eq_some_iff.mp hc).1
  have hdrop := drop_take_flatten hc
  rw [take_flatten_length h (Nat.le_of_lt hi), h c (mem_of_getElem? hc)] at hdrop
  exact hdrop

theorem stores_length {b : Builder} (h : Stores t b vs) : b.length = vs.length := by
  obtain ⟨o, _⟩ := b
  cases t with
  | union mode _ _ =>
    cases mode with
    | sparse => exact h.1
    | dense => exact h.1
  | dictionary _ _ _ | unsupported _ => exact h.elim
  | _ => exact h.1.length

/-- The slot of a finished union, and what it reads. -/
theorem valueAt_unionValue
    {array : ArrayData}
    (hslot : array.unionSlot codes i = (childId codes code).bind fun k =>
      children[k]?.map fun c => ⟨code, k, c, place⟩)
    (hread : ∀ k f, fields[k]? = some f → ∃ c column, children[k]? = some c ∧
      columns[k]? = some column ∧
        (childId codes code = some k → c.valueAt f.type place = column.getD place .null))
    (hlen : children.length = fields.length ∧ columns.length = fields.length) :
    array.valueAt (.union mode fields codes) i = unionValue codes columns code place := by
  unfold unionValue
  rw [valueAt, hslot]
  cases hk : childId codes code with
  | none => rfl
  | some k =>
    cases hf : fields[k]? with
    | none =>
      have hge := List.getElem?_eq_none_iff.mp hf
      rw [Option.bind_some, List.getElem?_eq_none_iff.mpr (show children.length ≤ k by omega)]
      dsimp only [Option.map_none]
      rw [List.getElem?_eq_none_iff.mpr (show columns.length ≤ k by omega)]
    | some f =>
      obtain ⟨c, column, hc, hcol, hvalue⟩ := hread k f hf
      rw [Option.bind_some, hc]
      simp only [Option.map_some, valuesAt_eq_map, getElem?_map, hf, hcol]
      rw [hvalue hk]

/-- The children of a finished nested array. -/
def finishAll (fields : List Field) (cs : List Builder) : List ArrayData :=
  List.zipWith (fun f c => f c) (finishes fields) cs

theorem finishAll_getElem? {k : Nat} (hf : fields[k]? = some f) (hc : cs[k]? = some c) :
    (finishAll fields cs)[k]? = some (finish f.type c) := by
  rw [finishAll, finishes_eq_map, getElem?_zipWith, getElem?_map, hf, hc]
  rfl

theorem finishAll_lengths (h : StoresAll fields cs columns) :
    (finishAll fields cs).length = fields.length ∧ columns.length = fields.length := by
  obtain ⟨hcs, hcols⟩ := storesAll_lengths h
  refine ⟨?_, hcols⟩
  rw [finishAll, finishes_eq_map, length_zipWith, length_map, hcs, Nat.min_self]

theorem unionSlot_sparse {types : List UInt8} (hs : s.offset = 0) (hcode : types[i]? = some code) :
    unionSlot codes (.sparseUnion s types children) i = (childId codes code).bind fun k =>
      children[k]?.map fun c => ⟨code, k, c, i⟩ := by
  simp [unionSlot, hs, hcode, Option.map_eq_bind]

theorem toNat?_int32 (h : n < 2 ^ 31) : (int32 n).toNat? = some n := by
  have hsame : int32 n = n := by
    unfold int32
    rw [Int.bmod_def]
    omega
  rw [hsame]
  rfl

/-- A slot is where its offset says, as it is stored. -/
theorem unionSlot_dense {types : List UInt8} {offsets : List Nat} {g : Nat → Int}
    (hs : s.offset = 0) (hcode : types[i]? = some code) (hoff : offsets[i]? = some j)
    (hstored : ∀ k, childId codes code = some k → k < children.length → (g j).toNat? = some place) :
    unionSlot codes (.denseUnion s types (offsets.map g) children) i =
      (childId codes code).bind fun k => children[k]?.map fun c => ⟨code, k, c, place⟩ := by
  cases hk : childId codes code with
  | none => simp [unionSlot, hs, hcode, hk]
  | some k =>
    cases hc : children[k]? with
    | none => simp [unionSlot, hs, hcode, hk, hc]
    | some c =>
      simp [unionSlot, hs, hcode, hk, hc, hoff,
        hstored k hk (List.getElem?_eq_some_iff.mp hc).1]

theorem WithinLimits.child {b : Builder} {ct : DataType} {k : Nat} (h : WithinLimits t b)
    (hct : (childTypes t)[k]? = some ct) (hc : b.children[k]? = some c) : WithinLimits ct c := by
  have hchild := (withinLimits_iff.mp h).2 k ct hct
  rwa [Builder.child, getD_of_getElem? hc] at hchild

theorem childTypes_getElem? {k : Nat} (hf : fields[k]? = some f) :
    (fields.map FieldOf.type)[k]? = some f.type := by
  rw [getElem?_map, hf]
  rfl

/-- **Reading.** The finished array has the values the builder holds, if its offsets can say
where they are. -/
theorem valueAt_finish {b : Builder}
    (hlim : WithinLimits t b) (h : Stores t b vs) (hv : vs[i]? = some v) :
    (finish t b).valueAt t i = v := by
  induction t generalizing b vs i v with
  | bool =>
    obtain ⟨o, cs⟩ := b
    obtain ⟨hmks, hsl⟩ := h
    obtain ⟨x, hx, hslot⟩ := forall₂_getElem?_right hsl hv
    show (if o.slots.isNull i then Value.null else .bool (o.bools.getD (0 + i) false)) = v
    rw [Nat.zero_add, getD_of_getElem? hx]
    exact read_slot hmks hv hslot rfl
  | fixed ft =>
    obtain ⟨o, cs⟩ := b
    obtain ⟨hmks, chunks, hvalues, hwid, hsl⟩ := h
    obtain ⟨c, hc, hslot⟩ := forall₂_getElem?_right hsl hv
    show (if o.slots.isNull i then Value.null
      else .fixed (FixedValue.ofBytes ft (slotBytes o.values ft.width (0 + i)))) = v
    rw [Nat.zero_add, hvalues, slotBytes_chunk hwid hc]
    exact read_slot hmks hv hslot rfl
  | var _ =>
    obtain ⟨o, cs⟩ := b
    obtain ⟨hmks, chunks, hbufs, hsl⟩ := h
    obtain ⟨c, hc, hslot⟩ := forall₂_getElem?_right hsl hv
    obtain ⟨hview, hs⟩ := getView_chunk cs hbufs hc
    rw [valueAt, hview, hs]
    exact read_slot hmks hv hslot rfl
  | struct fields ih =>
    obtain ⟨o, cs⟩ := b
    obtain ⟨hmks, columns, hcol, hlen, hsl⟩ := h
    have hi := (List.getElem?_eq_some_iff.mp hv).1
    rw [finish, valueAt]
    have hfs : zipWith (fun read c => read c ((o.slots).offset + i))
        (valuesAt fields) (zipWith (fun f c => f c) (finishes fields) cs) =
        columns.map (·.getD i .null) := by
      obtain ⟨_, _⟩ := storesAll_lengths hcol
      refine ext_getElem? ?_
      intro k
      rw [valuesAt_eq_map, finishes_eq_map, getElem?_zipWith, getElem?_zipWith,
        getElem?_map, getElem?_map, getElem?_map]
      cases hf : fields[k]? with
      | none =>
        have hge := List.getElem?_eq_none_iff.mp hf
        rw [show columns[k]? = none from List.getElem?_eq_none_iff.mpr (by omega)]
        rfl
      | some f =>
        obtain ⟨c, column, hc, hcolu, hsto⟩ := storesAll_getElem? hcol hf
        have hw : column[i]? = some (column.getD i .null) :=
          getElem?_getD (by rw [hlen column (mem_of_getElem? hcolu)]; exact hi)
        rw [hc, hcolu]
        show some ((finish f.type c).valueAt f.type (0 + i)) = some (column.getD i .null)
        rw [Nat.zero_add, ih f (mem_of_getElem? hf) (hlim.child (childTypes_getElem? hf) hc)
          hsto hw]
    rw [hfs]
    exact read_slot hmks hv (hsl i v hv) rfl
  | list _ item ih =>
    obtain ⟨o, cs⟩ := b
    obtain ⟨hmks, c, pieces, rfl, hch, hoff, hsl⟩ := h
    obtain ⟨p, hp, hslot⟩ := forall₂_getElem?_right hsl hv
    show (if o.slots.isNull i then Value.null else
      .list ((range' (valueRange o.slots (o.offsets ++ [c.length]) i).1
        (valueRange o.slots (o.offsets ++ [c.length]) i).2).map
          ((finish item.type c).valueAt item.type))) = v
    rw [stores_length hch, hoff, valueRange_piece rfl hp,
      map_range'_piece _ (fun j w hw => ih (hlim.child (k := 0) rfl rfl) hch hw) hp]
    exact read_slot hmks hv hslot rfl
  | fixedSizeList item size ih =>
    obtain ⟨o, cs⟩ := b
    obtain ⟨hmks, c, pieces, rfl, hch, hwid, hsl⟩ := h
    obtain ⟨p, hp, hslot⟩ := forall₂_getElem?_right hsl hv
    have hi := (List.getElem?_eq_some_iff.mp hp).1
    have hpc := map_range'_piece ((finish item.type c).valueAt item.type)
      (fun j w hw => ih (hlim.child (k := 0) rfl rfl) hch hw) hp
    rw [take_flatten_length hwid (Nat.le_of_lt hi), hwid p (mem_of_getElem? hp)] at hpc
    show (if o.slots.isNull i then Value.null else
      .list ((range' ((0 + i) * size) size).map ((finish item.type c).valueAt item.type))) = v
    rw [Nat.zero_add, hpc]
    exact read_slot hmks hv hslot rfl
  | map key item _ ihk ihv =>
    obtain ⟨o, cs⟩ := b
    obtain ⟨hmks, c, d, pieces, rfl, hkeys, hits, hoff, hprs, hsl⟩ := h
    obtain ⟨p, hp, hslot⟩ := forall₂_getElem?_right hsl hv
    have hpk : (pieces.map Prod.fst)[i]? = some p.1 := by rw [getElem?_map, hp]; rfl
    have hpv : (pieces.map Prod.snd)[i]? = some p.2 := by rw [getElem?_map, hp]; rfl
    have hkey := map_range'_piece ((finish key.type c).valueAt key.type)
      (fun j w hw => ihk (hlim.child (k := 0) rfl rfl) hkeys hw) hpk
    have hitem := map_range'_piece ((finish item.type d).valueAt item.type)
      (fun j w hw => ihv (hlim.child (k := 1) rfl rfl) hits hw) hpv
    -- keys and items are cut in the same places
    rw [← map_take, ← pairs_flatten_length fun q hq => hprs q (mem_of_mem_take hq),
      map_take, ← hprs p (mem_of_getElem? hp)] at hitem
    show (if o.slots.isNull i then Value.null else
      .map ((range' (valueRange o.slots (o.offsets ++ [c.length]) i).1
          (valueRange o.slots (o.offsets ++ [c.length]) i).2).map
            ((finish key.type c).valueAt key.type))
        ((range' (valueRange o.slots (o.offsets ++ [c.length]) i).1
          (valueRange o.slots (o.offsets ++ [c.length]) i).2).map
            ((finish item.type d).valueAt item.type))) = v
    rw [stores_length hkeys, hoff, valueRange_piece rfl hpk, hkey, hitem]
    exact read_slot hmks hv hslot rfl
  | union mode fields codes ih =>
    obtain ⟨o, cs⟩ := b
    have hi := (List.getElem?_eq_some_iff.mp hv).1
    cases mode with
    | sparse =>
      obtain ⟨hleng, htys, columns, hcol, hlen, hsl⟩ := h
      rw [hsl i v hv]
      have hcode : o.types[i]? = some (o.types.getD i 0) := getElem?_getD (by omega)
      refine valueAt_unionValue (unionSlot_sparse rfl hcode) ?_ (finishAll_lengths hcol)
      intro k f hf
      obtain ⟨c, column, hc, hcolu, hsto⟩ := storesAll_getElem? hcol hf
      refine ⟨_, column, finishAll_getElem? hf hc, hcolu, fun _ => ?_⟩
      refine ih f (mem_of_getElem? hf) (hlim.child (childTypes_getElem? hf) hc) hsto
        (getElem?_getD ?_)
      rw [hlen column (mem_of_getElem? hcolu)]
      exact hi
    | dense =>
      obtain ⟨hleng, htys, hoff, columns, hcol, hsl⟩ := h
      obtain ⟨hvalue, hpl⟩ := hsl i v hv
      rw [hvalue]
      have hcode : o.types[i]? = some (o.types.getD i 0) := getElem?_getD (by omega)
      have hoffs : o.offsets[i]? = some (o.offsets.getD i 0) := getElem?_getD (by omega)
      refine valueAt_unionValue (unionSlot_dense rfl hcode hoffs ?_) ?_ (finishAll_lengths hcol)
      · -- the place is one of the child's, and the child is within the limit
        intro k hk hlt
        have hlt : k < fields.length := (finishAll_lengths hcol).1 ▸ hlt
        obtain ⟨c, column, hc, hcolu, hsto⟩ := storesAll_getElem? hcol (getElem?_eq_getElem hlt)
        have hplace := hpl k column hk hcolu
        have hmem : c.length ∈ extents (.union .dense fields codes) (.mk o cs) :=
          mem_map.mpr
            ⟨k, mem_range.mpr hlt, by rw [Builder.child, Builder.children, getD_of_getElem? hc]⟩
        have hle := (withinLimits_iff.mp hlim).1 _ hmem
        rw [stores_length hsto] at hle
        exact toNat?_int32 (Nat.lt_of_lt_of_le hplace (Nat.le_trans hle (by decide)))
      · intro k f hf
        obtain ⟨c, column, hc, hcolu, hsto⟩ := storesAll_getElem? hcol hf
        refine ⟨_, column, finishAll_getElem? hf hc, hcolu, fun hk => ?_⟩
        exact ih f (mem_of_getElem? hf) (hlim.child (childTypes_getElem? hf) hc) hsto
          (getElem?_getD (hpl k column hk hcolu))
  | dictionary _ _ _ _ | unsupported _ =>
    obtain ⟨o, cs⟩ := b
    exact h.elim

/-! ## Growing -/

/-- Whatever the builder holds, these values come after it. -/
def Grows (t : DataType) (b b' : Builder) (ws : List Value) : Prop :=
  ∀ vs, Stores t b vs → Stores t b' (vs ++ ws)

theorem Grows.refl (t : DataType) (b : Builder) : Grows t b b [] := by
  intro _ h
  rwa [append_nil]

theorem Grows.trans {b b' b'' : Builder} {us : List Value} (h : Grows t b b' ws)
    (h' : Grows t b' b'' us) : Grows t b b'' (ws ++ us) := by
  intro vs hvs
  rw [← append_assoc]
  exact h' _ (h vs hvs)

/-- The same for columns side by side, one list of values for each. -/
def GrowsAll (fields : List Field) (cs cs' : List Builder) (wss : List (List Value)) : Prop :=
  wss.length = fields.length ∧ ∀ columns, StoresAll fields cs columns →
    StoresAll fields cs' (List.zipWith (· ++ ·) columns wss)

theorem growsAll_nil : GrowsAll [] [] [] [] := by
  refine ⟨rfl, ?_⟩
  intro _ h
  rw [zipWith_nil_right]
  exact trivial

theorem growsAll_cons {name : String} {nullable : Bool} {c' : Builder} (hc : Grows t c c' ws)
    (hcs : GrowsAll fields cs cs' wss) :
    GrowsAll (⟨name, t, nullable⟩ :: fields) (c :: cs) (c' :: cs') (ws :: wss) := by
  refine ⟨congrArg (· + 1) hcs.1, ?_⟩
  intro columns h
  cases columns with
  | nil => exact h.elim
  | cons column columns => exact ⟨hc column h.1, hcs.2 columns h.2⟩

/-- Builders that are not there hold nothing. -/
theorem growsAll_of_short (h : wss.length = (f :: fields).length) :
    GrowsAll (f :: fields) [] cs' wss := by
  refine ⟨h, ?_⟩
  intro columns hcols
  obtain ⟨_, t, _⟩ := f
  cases columns with
  | nil => exact hcols.elim
  | cons _ columns => exact hcols.elim

theorem GrowsAll.trans_set
    {k : Nat} {c' : Builder} {us : List Value} (h : GrowsAll fields cs cs' wss)
    (hf : fields[k]? = some f) (hc : cs'[k]? = some c) (hws : wss[k]? = some ws)
    (hgr : Grows f.type c c' us) : GrowsAll fields cs (cs'.set k c') (wss.set k (ws ++ us)) := by
  refine ⟨by rw [length_set]; exact h.1, ?_⟩
  intro columns hcols
  have hall := h.2 columns hcols
  obtain ⟨_, column, hc₀, hcol, hsto⟩ := storesAll_getElem? hall hf
  rw [hc] at hc₀
  cases hc₀
  have hset := storesAll_set hall hf (hgr column hsto)
  rw [getElem?_zipWith_eq_some] at hcol
  obtain ⟨_, _, hbef, hws', rfl⟩ := hcol
  rw [hws] at hws'
  cases hws'
  rw [append_assoc, ← zipWith_set_right (· ++ ·) (ws ++ us) hbef] at hset
  exact hset

theorem growsAll_refl :
    GrowsAll fields cs cs (replicate fields.length []) := by
  refine ⟨by simp, ?_⟩
  intro _ h
  rw [← (storesAll_lengths h).2, zipWith_append_nils]
  exact h

/-! ### Blocks of slots -/

/-- Slots for the values are added, all of them null or none. -/
structure AddsSlots (ok : Bool) (o o' : Buffers) (ws : List Value) : Prop where
  length : o'.length = o.length + ws.length
  valid : o'.valid = o.valid ++ List.replicate ws.length ok
  null : ∀ w ∈ ws, w.isNull = !ok

theorem addsSlots_one (hv : v.isNull = false) (hlen : o'.length = o.length + 1)
    (hval : o'.valid = o.valid ++ [true]) : AddsSlots true o o' [v] :=
  ⟨hlen, hval, forall_mem_singleton.mpr hv⟩

theorem marks_append (h : Marks o vs) (hadd : AddsSlots ok o o' ws) : Marks o' (vs ++ ws) := by
  refine ⟨by rw [hadd.length, h.length, length_append], ?_⟩
  rw [hadd.valid, h.valid, map_append]
  congr 1
  rw [eq_comm, eq_replicate_iff]
  refine ⟨length_map _, ?_⟩
  intro b hb
  obtain ⟨w, hw, rfl⟩ := mem_map.mp hb
  rw [hadd.null w hw, Bool.not_not]

/-- The columns of a block of rows put under the columns there are. -/
theorem appended_old (hlen : wss.length = columns.length)
    (hi : ∀ column ∈ columns, i < column.length) :
    (zipWith (· ++ ·) columns wss).map (·.getD i .null) = columns.map (·.getD i .null) := by
  induction columns generalizing wss with
  | nil => rfl
  | cons column columns ih =>
    cases wss with
    | nil => cases hlen
    | cons _ wss =>
      rw [zipWith_cons_cons, map_cons, map_cons, ih (Nat.succ.inj hlen)
        fun c hc => hi c (mem_cons_of_mem _ hc),
        getD_append _ _ _ _ (hi column mem_cons_self)]

theorem appended_new (hlen : wss.length = columns.length)
    (hn : ∀ column ∈ columns, column.length = n) (j : Nat) :
    (zipWith (· ++ ·) columns wss).map (·.getD (n + j) .null) = wss.map (·.getD j .null) := by
  induction columns generalizing wss with
  | nil =>
    rw [eq_nil_of_length_eq_zero hlen]
    rfl
  | cons column columns ih =>
    cases wss with
    | nil => cases hlen
    | cons _ wss =>
      have hcol := hn column mem_cons_self
      rw [zipWith_cons_cons, map_cons, map_cons, ih (Nat.succ.inj hlen)
        fun c hc => hn c (mem_cons_of_mem _ hc), ← hcol,
        getD_append_right _ _ _ _ (Nat.le_add_right _ _), Nat.add_sub_cancel_left]

theorem appended_length {m : Nat}
    (hcols : ∀ column ∈ columns, column.length = m) (hwss : ∀ ws ∈ wss, ws.length = n) :
    ∀ column ∈ zipWith (· ++ ·) columns wss, column.length = m + n := by
  intro column h
  obtain ⟨k, hk⟩ := mem_iff_getElem?.mp h
  rw [getElem?_zipWith_eq_some] at hk
  obtain ⟨a, b, ha, hb, rfl⟩ := hk
  rw [length_append, hcols a (mem_of_getElem? ha), hwss b (mem_of_getElem? hb)]

theorem unionValue_old (hlen : wss.length = columns.length)
    (h : ∀ k column, childId codes code = some k → columns[k]? = some column →
      place < column.length) :
    unionValue codes (zipWith (· ++ ·) columns wss) code place =
      unionValue codes columns code place := by
  unfold unionValue
  cases hk : childId codes code with
  | none => rfl
  | some k =>
    dsimp only
    rw [getElem?_zipWith]
    cases hcol : columns[k]? with
    | none => rfl
    | some column =>
      have hlt := (List.getElem?_eq_some_iff.mp hcol).1
      rw [show wss[k]? = some (wss.getD k []) from getElem?_getD (by omega)]
      dsimp only
      rw [getD_append _ _ _ _ (h k column hk hcol)]

theorem unionValue_new (hlen : wss.length = columns.length)
    (h : ∀ k column, childId codes code = some k → columns[k]? = some column →
      place = column.length + j) :
    unionValue codes (zipWith (· ++ ·) columns wss) code place =
      unionValue codes wss code j := by
  unfold unionValue
  cases hk : childId codes code with
  | none => rfl
  | some k =>
    dsimp only
    rw [getElem?_zipWith]
    cases hcol : columns[k]? with
    | none =>
      have hge := List.getElem?_eq_none_iff.mp hcol
      rw [List.getElem?_eq_none_iff.mpr (show wss.length ≤ k by omega)]
    | some column =>
      have hlt := (List.getElem?_eq_some_iff.mp hcol).1
      rw [show wss[k]? = some (wss.getD k []) from getElem?_getD (by omega)]
      dsimp only
      rw [h k column hk hcol, getD_append_right _ _ _ _ (Nat.le_add_right _ _),
        Nat.add_sub_cancel_left]

/-- A position behind the first `m` of a list. -/
theorem getElem?_append_cases (h : (vs ++ ws)[i]? = some v) :
    (i < vs.length ∧ vs[i]? = some v) ∨ ∃ j, i = vs.length + j ∧ ws[j]? = some v := by
  by_cases hi : i < vs.length
  · rw [getElem?_append_left hi] at h
    exact .inl ⟨hi, h⟩
  · rw [getElem?_append_right (by omega)] at h
    exact .inr ⟨i - vs.length, by omega, h⟩

/-- Rows below the rows of a struct builder. -/
theorem grows_struct (hall : GrowsAll fields cs cs' wss)
    (hwss : ∀ us ∈ wss, us.length = ws.length) (hadd : AddsSlots ok o o' ws)
    (hnew : ∀ j w, ws[j]? = some w → Slot (· = .struct (wss.map (·.getD j .null))) w) :
    Grows (.struct fields) (.mk o cs) (.mk o' cs') ws := by
  intro _ h
  obtain ⟨hmks, columns, hcols, hlen, hsl⟩ := h
  have hcnt : wss.length = columns.length := by rw [hall.1, (storesAll_lengths hcols).2]
  refine ⟨marks_append hmks hadd, _, hall.2 columns hcols, ?_, ?_⟩
  · rw [length_append]
    exact appended_length hlen hwss
  · intro i v hv
    rcases getElem?_append_cases hv with ⟨hi, hold⟩ | ⟨j, rfl, hw⟩
    · rw [appended_old hcnt fun column hcol => by rw [hlen column hcol]; exact hi]
      exact hsl i v hold
    · rw [appended_new hcnt hlen j]
      exact hnew j v hw

/-- Rows below the rows of a sparse union builder. -/
theorem grows_sparse (code : UInt8) (hall : GrowsAll fields cs cs' wss)
    (hwss : ∀ us ∈ wss, us.length = ws.length) (hleng : o'.length = o.length + ws.length)
    (htys : o'.types = o.types ++ replicate ws.length code)
    (hnew : ∀ j w, ws[j]? = some w → w = unionValue codes wss code j) :
    Grows (.union .sparse fields codes) (.mk o cs) (.mk o' cs') ws := by
  intro _ h
  obtain ⟨hlen₀, htys₀, columns, hcols, hlen, hsl⟩ := h
  have hcnt : wss.length = columns.length := by rw [hall.1, (storesAll_lengths hcols).2]
  refine ⟨by rw [hleng, hlen₀, length_append],
    by rw [htys, length_append, length_append, htys₀, length_replicate],
    _, hall.2 columns hcols, ?_, ?_⟩
  · rw [length_append]
    exact appended_length hlen hwss
  · intro i v hv
    rcases getElem?_append_cases hv with ⟨hi, hold⟩ | ⟨j, rfl, hw⟩
    · rw [htys, getD_append _ _ _ _ (by omega), unionValue_old hcnt]
      · exact hsl i v hold
      · intro k column _ hcol
        rw [hlen column (mem_of_getElem? hcol)]
        exact hi
    · have hj := (List.getElem?_eq_some_iff.mp hw).1
      rw [htys, getD_append_right _ _ _ _ (by omega), htys₀, Nat.add_sub_cancel_left,
        getD_replicate _ hj, unionValue_new hcnt]
      · exact hnew j v hw
      · intro k column _ hcol
        rw [hlen column (mem_of_getElem? hcol)]

/-- Slots of a dense union builder, all at one new place of their column. -/
theorem grows_dense (code : UInt8) (place : Nat) (hall : GrowsAll fields cs cs' wss)
    (hlen : o'.length = o.length + ws.length)
    (htys : o'.types = o.types ++ replicate ws.length code)
    (hoff : o'.offsets = o.offsets ++ replicate ws.length place)
    (hpl : ∀ k c, childId codes code = some k → cs[k]? = some c → place = c.length)
    (hroom : ∀ k us, childId codes code = some k → wss[k]? = some us → us ≠ [])
    (hnew : ∀ w ∈ ws, w = unionValue codes wss code 0) :
    Grows (.union .dense fields codes) (.mk o cs) (.mk o' cs') ws := by
  intro _ h
  obtain ⟨hlen₀, htys₀, hoff₀, columns, hcols, hsl⟩ := h
  have hcnt : wss.length = columns.length := by rw [hall.1, (storesAll_lengths hcols).2]
  have hcolumn_place : ∀ k column, childId codes code = some k → columns[k]? = some column →
      place = column.length := by
    intro k column hk hcol
    have hlt : k < fields.length := by
      rw [← (storesAll_lengths hcols).2]
      exact (List.getElem?_eq_some_iff.mp hcol).1
    obtain ⟨c, _, hc, hcol', hsto⟩ := storesAll_getElem? hcols (getElem?_eq_getElem hlt)
    rw [hcol] at hcol'
    cases hcol'
    rw [hpl k c hk hc, stores_length hsto]
  refine ⟨by rw [hlen, hlen₀, length_append],
    by rw [htys, length_append, length_append, htys₀, length_replicate],
    by rw [hoff, length_append, length_append, hoff₀, length_replicate],
    _, hall.2 columns hcols, ?_⟩
  intro i v hv
  rcases getElem?_append_cases hv with ⟨_, hold⟩ | ⟨j, rfl, hw⟩
  · obtain ⟨hvalue, hrng⟩ := hsl i v hold
    rw [htys, hoff, getD_append _ _ _ _ (by omega), getD_append _ _ _ _ (by omega)]
    refine ⟨?_, ?_⟩
    · rw [unionValue_old hcnt hrng]
      exact hvalue
    · intro k column hk hcol
      rw [getElem?_zipWith_eq_some] at hcol
      obtain ⟨before, us, hbef, -, rfl⟩ := hcol
      rw [length_append]
      have := hrng k before hk hbef
      omega
  · have hj := (List.getElem?_eq_some_iff.mp hw).1
    rw [htys, hoff, getD_append_right _ _ _ _ (by omega),
      getD_append_right _ _ _ _ (by omega), htys₀, hoff₀, Nat.add_sub_cancel_left,
      getD_replicate _ hj, getD_replicate _ hj]
    refine ⟨?_, ?_⟩
    · rw [unionValue_new (j := 0) hcnt hcolumn_place]
      exact hnew v (mem_of_getElem? hw)
    · intro k column hk hcol
      rw [getElem?_zipWith_eq_some] at hcol
      obtain ⟨before, us, hbef, hus, rfl⟩ := hcol
      have hpos := length_pos_of_ne_nil (hroom k us hk hus)
      rw [length_append, hcolumn_place k before hk hbef]
      omega

/-! ### Leaves and lists -/

theorem grows_bool {xs : List Bool} (hadd : AddsSlots ok o o' ws)
    (hbools : o'.bools = o.bools ++ xs) (hws : Forall₂ (fun x => Slot (· = .bool x)) xs ws) :
    Grows .bool (.mk o cs) (.mk o' cs) ws := by
  intro _ h
  obtain ⟨hmks, hsl⟩ := h
  refine ⟨marks_append hmks hadd, ?_⟩
  rw [hbools]
  exact rel_append hsl hws

theorem grows_fixed {t : FixedType} (chunks : List Bytes) (hadd : AddsSlots ok o o' ws)
    (hvalues : o'.values = o.values ++ chunks.flatten) (hwid : ∀ c ∈ chunks, c.length = t.width)
    (hws : Forall₂ (fun c => Slot (· = .fixed (FixedValue.ofBytes t c))) chunks ws) :
    Grows (.fixed t) (.mk o cs) (.mk o' cs) ws := by
  intro _ h
  obtain ⟨hmks, chunks₀, hvalues₀, hwid₀, hsl⟩ := h
  refine ⟨marks_append hmks hadd, chunks₀ ++ chunks, ?_, ?_, rel_append hsl hws⟩
  · rw [hvalues, hvalues₀, flatten_append]
  · intro c hc
    rcases mem_append.mp hc with hc | hc
    · exact hwid₀ c hc
    · exact hwid c hc

theorem grows_view {t : VarType} (ht : t.isView = true) (chunks : List Bytes)
    (hadd : AddsSlots ok o o' ws) (hvws : o'.views = o.views ++ chunks)
    (hws : Forall₂ (fun c => Slot (· = .binary t c)) chunks ws) :
    Grows (.var t) (.mk o cs) (.mk o' cs) ws := by
  intro _ h
  obtain ⟨hmks, chunks₀, hbufs, hsl⟩ := h
  refine ⟨marks_append hmks hadd, chunks₀ ++ chunks, ?_, rel_append hsl hws⟩
  rw [if_pos ht] at hbufs ⊢
  rw [hvws, hbufs]

theorem grows_binary {t : VarType} (ht : ¬t.isView = true) (chunks : List Bytes)
    (hadd : AddsSlots ok o o' ws) (hvalues : o'.values = o.values ++ chunks.flatten)
    (hoff : ∀ before : List Bytes, o.offsets = starts before →
      o.values = before.flatten → o'.offsets = starts (before ++ chunks))
    (hws : Forall₂ (fun c => Slot (· = .binary t c)) chunks ws) :
    Grows (.var t) (.mk o cs) (.mk o' cs) ws := by
  intro _ h
  obtain ⟨hmks, chunks₀, hbufs, hsl⟩ := h
  refine ⟨marks_append hmks hadd, chunks₀ ++ chunks, ?_, rel_append hsl hws⟩
  rw [if_neg ht] at hbufs ⊢
  refine ⟨hoff chunks₀ hbufs.1 hbufs.2, ?_⟩
  rw [hvalues, hbufs.2, flatten_append]

theorem slots_replicate {α : Type} {g : α → Value} {a : α} (n : Nat) (h : Slot (· = g a) w) :
    Forall₂ (fun a => Slot (· = g a)) (replicate n a) (replicate n w) :=
  forall₂_replicate (R := fun a => Slot (· = g a)) h n

/-! ### Nulls and empty values -/

mutual

/-- The empty value of a type. -/
def blank : DataType → Value
  | .bool => .bool false
  | .fixed t => .fixed (FixedValue.ofBytes t (List.replicate t.width 0))
  | .var t => .binary t []
  | .struct fields => .struct (blanks fields)
  | .list _ _ => .list []
  | .fixedSizeList ⟨_, t, _⟩ size => .list (List.replicate size (blank t))
  | .map _ _ _ => .map [] []
  | .union _ fields codes =>
    match firstChild codes with
    | some k =>
      match (blanks fields)[k]? with
      | some w => .underCode (firstCode codes) w
      | none => .null
    | none => .null
  | _ => .null

def blanks : List Field → List Value
  | [] => []
  | ⟨_, t, _⟩ :: fs => blank t :: blanks fs

end

theorem blanks_eq_map : ∀ fields, blanks fields = fields.map (fun f => blank f.type)
  | [] => rfl
  | ⟨_, t, _⟩ :: fs => by rw [blanks, blanks_eq_map fs]; rfl

/-- What a slot filled with nothing reads as. -/
def filler (t : DataType) (ok : Bool) : Value := if ok then blank t else .null

theorem filler_false (t : DataType) : filler t false = .null := rfl

theorem filler_slot (h : blank t = w) (ok : Bool) : Slot (· = w) (filler t ok) := by
  cases ok with
  | false => exact .inl rfl
  | true => exact .inr h

theorem addsSlots_fill (h : (blank t).isNull = false) (hlen : o'.length = o.length + n)
    (hval : o'.valid = o.valid ++ replicate n ok) :
    AddsSlots ok o o' (replicate n (filler t ok)) := by
  refine ⟨by rwa [length_replicate], by rwa [length_replicate], ?_⟩
  intro w hw
  rw [(mem_replicate.mp hw).2]
  cases ok with
  | false => rfl
  | true => exact h

/-- The columns of the rows that fill a struct or a sparse union. -/
def fillColumns (target : Option Nat) (ok : Bool) (n : Nat) : Nat → List Field → List (List Value)
  | _, [] => []
  | k, ⟨_, t, _⟩ :: fs =>
    List.replicate n (filler t (if target = some k then ok else true)) ::
      fillColumns target ok n (k + 1) fs

theorem fillColumns_length : ∀ (fields : List Field) (k),
    (fillColumns target ok n k fields).length = fields.length
  | [], _ => rfl
  | ⟨_, _, _⟩ :: fs, k => congrArg (· + 1) (fillColumns_length fs (k + 1))

theorem fillColumns_getElem? :
    ∀ {fields : List Field} {k i : Nat} {f : Field}, fields[i]? = some f →
    (fillColumns target ok n k fields)[i]? =
      some (replicate n (filler f.type (if target = some (k + i) then ok else true)))
  | ⟨_, _, _⟩ :: fs, k, 0, f, h => by
    cases h
    rfl
  | ⟨_, _, _⟩ :: fs, k, i + 1, f, h => by
    rw [fillColumns, getElem?_cons_succ,
      fillColumns_getElem? (k := k + 1) (show fs[i]? = some f from h), Nat.add_right_comm k 1 i]
    rfl

theorem fillColumns_width :
    ∀ {fields : List Field} {k : Nat}, ∀ us ∈ fillColumns target ok n k fields, us.length = n
  | ⟨_, _, _⟩ :: fs, k, us, h => by
    rcases mem_cons.mp h with rfl | h
    · exact length_replicate
    · exact fillColumns_width us h

theorem growsAll_fill : ∀ {fields : List Field}
    {cs : List Builder} {k : Nat},
    (∀ f ∈ fields, ∀ ok n b, Grows f.type b (fill f.type ok n b) (replicate n (filler f.type ok))) →
    GrowsAll fields cs (fillChildren target ok n k (fills fields) cs)
      (fillColumns target ok n k fields)
  | [], [], _, _ => growsAll_nil
  | [], _ :: _, _, _ => ⟨rfl, fun columns h => by cases columns <;> exact h.elim⟩
  | ⟨_, _, _⟩ :: _, [], _, _ => growsAll_of_short (fillColumns_length _ _)
  | ⟨name, t, nullable⟩ :: fs, c :: cs, k, h =>
    growsAll_cons (h ⟨name, t, nullable⟩ mem_cons_self _ n c)
      (growsAll_fill fun f hf => h f (mem_cons_of_mem _ hf))

theorem growsAll_fillChild
    (h : ∀ f ∈ fields, ∀ ok n b,
      Grows f.type b (fill f.type ok n b) (replicate n (filler f.type ok))) :
    ∃ wss, GrowsAll fields cs (fillChild target ok (fills fields) cs) wss ∧
      ∀ k f, target = some k → fields[k]? = some f → wss[k]? = some [filler f.type ok] := by
  unfold fillChild
  cases target with
  | none => exact ⟨_, growsAll_refl, nofun⟩
  | some k =>
    dsimp only
    rw [fills_eq_map, getElem?_map]
    cases hf : fields[k]? with
    | none =>
      refine ⟨_, growsAll_refl, ?_⟩
      intro j f hj hf'
      cases hj
      rw [hf] at hf'
      cases hf'
    | some f =>
      have hlt := (List.getElem?_eq_some_iff.mp hf).1
      refine ⟨(replicate fields.length []).set k ([] ++ [filler f.type ok]), ?_, ?_⟩
      · refine ⟨by simp, ?_⟩
        intro columns hcols
        obtain ⟨c, _, hc, -, -⟩ := storesAll_getElem? hcols hf
        have hset := growsAll_refl.trans_set hf hc (getElem?_replicate_of_lt hlt)
          (h f (mem_of_getElem? hf) ok 1 c)
        have hmod : cs.modify k (fill f.type ok 1) = cs.set k (fill f.type ok 1 c) := by
          rw [modify_eq_set_getElem?, hc]
          rfl
        show StoresAll fields (cs.modify k (fill f.type ok 1)) _
        rw [hmod]
        exact hset.2 columns hcols
      · intro j g hj hg
        cases hj
        rw [hf] at hg
        cases hg
        rw [getElem?_set_self (by simpa using hlt)]
        rfl

theorem fillColumns_row (hj : j < n) : ∀ (fields : List Field) (k : Nat),
    (fillColumns none ok n k fields).map (·.getD j .null) = blanks fields
  | [], _ => rfl
  | ⟨_, t, _⟩ :: fs, k => by
    rw [fillColumns, map_cons, fillColumns_row hj fs (k + 1), blanks, getD_replicate _ hj]
    rfl

theorem filler_union (ok : Bool) :
    filler (.union mode fields codes) ok = match firstChild codes with
      | some k =>
        match fields[k]? with
        | some f => .underCode (firstCode codes) (filler f.type ok)
        | none => .null
      | none => .null := by
  cases ok with
  | false =>
    cases firstChild codes with
    | none => rfl
    | some k => cases hf : fields[k]? <;> simp [hf, filler, Value.underCode]
  | true =>
    rw [filler, if_pos rfl, blank]
    cases firstChild codes with
    | none => rfl
    | some k =>
      rw [blanks_eq_map]
      cases hf : fields[k]? <;> simp [hf, filler]

/-- What the filled slots of a union read, one value in the column of its first child. -/
theorem unionValue_filler (hlen : wss.length = fields.length)
    (h : ∀ k f, firstChild codes = some k → fields[k]? = some f →
      ∃ us, wss[k]? = some us ∧ us[j]? = some (filler f.type ok)) :
    filler (.union mode fields codes) ok = unionValue codes wss (firstCode codes) j := by
  rw [filler_union]
  unfold unionValue
  rw [show childId codes (firstCode codes) = firstChild codes from rfl]
  cases hk : firstChild codes with
  | none => rfl
  | some k =>
    dsimp only
    cases hf : fields[k]? with
    | none =>
      have hge := List.getElem?_eq_none_iff.mp hf
      rw [List.getElem?_eq_none_iff.mpr (show wss.length ≤ k by omega)]
    | some f =>
      obtain ⟨us, hus, hj⟩ := h k f hk hf
      rw [hus]
      dsimp only
      rw [getD_of_getElem? hj]

/-- **Filling.** Null or empty slots, and nothing else that can be seen. -/
theorem fill_grows (ht : t.supported = true) (ok : Bool) (n : Nat) (b : Builder) :
    Grows t b (fill t ok n b) (replicate n (filler t ok)) := by
  induction ht using DataType.supported_rec generalizing ok n b with
  | bool =>
    obtain ⟨o, cs⟩ := b
    exact grows_bool (addsSlots_fill rfl rfl rfl) rfl
      (slots_replicate n (filler_slot rfl ok))
  | fixed ft =>
    obtain ⟨o, cs⟩ := b
    refine grows_fixed (replicate n (replicate ft.width 0)) (addsSlots_fill rfl rfl rfl) ?_ ?_
      (slots_replicate n (filler_slot rfl ok))
    · rw [flatten_replicate_replicate]
    · intro c hc
      rw [(mem_replicate.mp hc).2, length_replicate]
  | var vt =>
    obtain ⟨o, cs⟩ := b
    rw [fill]
    have hsl : Forall₂ (fun c => Slot (· = .binary vt c)) (replicate n [])
        (replicate n (filler (.var vt) ok)) := slots_replicate n (filler_slot rfl ok)
    by_cases hview : vt.isView = true
    · rw [if_pos hview]
      exact grows_view hview (replicate n []) (addsSlots_fill rfl rfl rfl) rfl hsl
    · rw [if_neg hview]
      refine grows_binary hview (replicate n []) (addsSlots_fill rfl rfl rfl) ?_ ?_ hsl
      · simp [Buffers.addSlots, Buffers.addOffsets]
      · intro _ hoff hvalues
        rw [starts_append_nils, ← hoff, ← hvalues]
        rfl
  | struct fields _ ih =>
    obtain ⟨o, cs⟩ := b
    refine grows_struct (growsAll_fill ih) ?_ (addsSlots_fill rfl rfl rfl) ?_
    · rw [length_replicate]
      exact fillColumns_width
    · intro j w hw
      have hj : j < n := by simpa using (List.getElem?_eq_some_iff.mp hw).1
      rw [getElem?_replicate_of_lt hj] at hw
      cases hw
      rw [fillColumns_row hj]
      exact filler_slot rfl ok
  | list _ item _ ih =>
    intro vs h
    obtain ⟨o, cs⟩ := b
    obtain ⟨hmks, c, pieces, rfl, hch, hoff, hsl⟩ := h
    refine ⟨marks_append hmks (addsSlots_fill rfl rfl rfl), c, pieces ++ replicate n [], rfl, ?_,
      ?_, rel_append hsl (slots_replicate n (filler_slot rfl ok))⟩
    · simpa using hch
    · rw [starts_append_nils, ← stores_length hch, ← hoff]
      rfl
  | fixedSizeList item size _ ih =>
    intro vs h
    obtain ⟨o, cs⟩ := b
    obtain ⟨hmks, c, pieces, rfl, hch, hwid, hsl⟩ := h
    have hpc : Slot (· = .list (replicate size (filler item.type ok)))
        (filler (.fixedSizeList item size) ok) := by
      cases ok with
      | false => exact .inl rfl
      | true => exact .inr rfl
    refine ⟨marks_append hmks (addsSlots_fill rfl rfl rfl), fill item.type ok (size * n) c,
      pieces ++ replicate n (replicate size (filler item.type ok)), rfl, ?_, ?_,
      rel_append hsl (slots_replicate n hpc)⟩
    · rw [flatten_append, flatten_replicate_replicate, Nat.mul_comm n]
      exact ih ok (size * n) c _ hch
    · intro p hp
      rcases mem_append.mp hp with hp | hp
      · exact hwid p hp
      · rw [(mem_replicate.mp hp).2, length_replicate]
  | map _ item _ _ _ _ =>
    intro vs h
    obtain ⟨o, cs⟩ := b
    obtain ⟨hmks, c, d, pieces, rfl, hkeys, hits, hoff, hprs, hsl⟩ := h
    refine ⟨marks_append hmks (addsSlots_fill rfl rfl rfl), c, d,
      pieces ++ replicate n ([], []), rfl, ?_, ?_, ?_, ?_,
      rel_append hsl (slots_replicate n (filler_slot rfl ok))⟩
    · simpa using hkeys
    · simpa using hits
    · rw [map_append, map_replicate, starts_append_nils, ← stores_length hkeys, ← hoff]
      rfl
    · intro p hp
      rcases mem_append.mp hp with hp | hp
      · exact hprs p hp
      · rw [(mem_replicate.mp hp).2]
  | union mode fields codes ht ih =>
    obtain ⟨o, cs⟩ := b
    cases mode with
    | sparse =>
      refine grows_sparse (firstCode codes) (growsAll_fill ih) ?_ ?_ ?_
        ?_
      · rw [length_replicate]
        exact fillColumns_width
      · simp [Buffers.addTypes]
      · simp [Buffers.addTypes]
      · intro j w hw
        have hj : j < n := by simpa using (List.getElem?_eq_some_iff.mp hw).1
        rw [getElem?_replicate_of_lt hj] at hw
        cases hw
        refine unionValue_filler (fillColumns_length _ _) ?_
        intro k f hk hf
        refine ⟨_, fillColumns_getElem? hf, ?_⟩
        rw [getElem?_replicate_of_lt hj, hk, Nat.zero_add, if_pos rfl]
    | dense =>
      obtain ⟨_, hall, hfst⟩ := growsAll_fillChild ih
      refine grows_dense (firstCode codes) (match firstChild codes with
          | some k => (cs.getD k .empty).length
          | none => 0) hall ?_ ?_ ?_ ?_ ?_ ?_
      · simp [Buffers.addTypes, Buffers.addOffsets]
      · simp [Buffers.addTypes, Buffers.addOffsets]
      · rw [length_replicate]
        rfl
      · intro k c hk hc
        rw [show firstChild codes = some k from hk]
        dsimp only
        rw [getD_of_getElem? hc]
      · intro k _ hk hus
        have hlt : k < fields.length := by
          rw [← hall.1]
          exact (List.getElem?_eq_some_iff.mp hus).1
        rw [hfst k _ hk (getElem?_eq_getElem hlt)] at hus
        cases hus
        exact cons_ne_nil _ _
      · intro w hw
        rw [(mem_replicate.mp hw).2]
        refine unionValue_filler hall.1 ?_
        intro k f hk hf
        exact ⟨_, hfst k f hk hf, rfl⟩

/-! ## New builders -/

theorem storesAll_makeBuilders : ∀ {fields : List Field},
    (∀ f ∈ fields, Stores f.type (makeBuilder f.type) []) →
    StoresAll fields (makeBuilders fields) (replicate fields.length [])
  | [], _ => trivial
  | ⟨name, t, nullable⟩ :: _, h =>
    ⟨h ⟨name, t, nullable⟩ mem_cons_self,
      storesAll_makeBuilders fun f hf => h f (mem_cons_of_mem _ hf)⟩

theorem stores_makeBuilder (ht : t.supported = true) : Stores t (makeBuilder t) [] := by
  induction ht using DataType.supported_rec with
  | bool => exact ⟨⟨rfl, rfl⟩, .nil⟩
  | fixed _ => exact ⟨⟨rfl, rfl⟩, [], rfl, by simp, .nil⟩
  | var vt =>
    refine ⟨⟨rfl, rfl⟩, [], ?_, .nil⟩
    by_cases hview : vt.isView = true
    · rw [if_pos hview]
    · rw [if_neg hview]
      exact ⟨rfl, rfl⟩
  | struct fields _ ih =>
    refine ⟨⟨rfl, rfl⟩, _, storesAll_makeBuilders fun f hf => ih f hf, ?_, by simp⟩
    intro column hcol
    rw [(mem_replicate.mp hcol).2]
  | list _ item _ ih => exact ⟨⟨rfl, rfl⟩, _, [], rfl, ih, rfl, .nil⟩
  | fixedSizeList item _ _ ih => exact ⟨⟨rfl, rfl⟩, _, [], rfl, ih, by simp, .nil⟩
  | map _ item _ _ ihk ihv =>
    exact ⟨⟨rfl, rfl⟩, _, _, [], rfl, ihk, ihv, rfl, by simp, .nil⟩
  | union mode fields _ ht ih =>
    have hall := storesAll_makeBuilders fun f hf => ih f hf
    cases mode with
    | sparse =>
      refine ⟨rfl, rfl, _, hall, ?_, by simp⟩
      intro column hcol
      rw [(mem_replicate.mp hcol).2]
    | dense => exact ⟨rfl, rfl, rfl, _, hall, by simp⟩

end Fletcher.Arrow
