import Fletcher.Arrow.ArrayReading
import Fletcher.Bridge.Codec
import Fletcher.Bridge.WireFormat

/-!
# What the encoder writes, and what it accepts

`Writes enc d` says that `enc` never throws and appends exactly `d`, whatever is
in the buffer already. `Encodes enc ok d` says when: `enc` writes `d` if `ok`, and
succeeds on no buffer otherwise. Both recursive encoders are shown to write `wire` of
the logical value they are handed, if that fits the wire and its dictionary entries are
there: `encodeElement_encodes` for the array path, `encodeScalarValue_encodes` for the
scalar path. That the two paths agree on the same logical value is then immediate, and so is
that slicing and offsets do not show on the wire.

The work is in the back-patched bitfields. A run of slots is laid down zeroed and
patched while the payloads grow behind it; `writeSlots_spec` carries the bitfield
and the payload tail through the loop separately.

One length is not checked on the way down: that of a fixed-size list, which is the
schema's. The converse is therefore about types whose sizes fit (`fixedSizesFit`).
-/

namespace Fletcher.Bridge

open Lib Arrow ArrayData Fletcher.Core List WriteBuffer

variable {outs : List (Option Bytes)} {items : List (Option Encode)} {start count : Nat}

variable {A : Api} {t : DataType} {n : Nat} {a : ArrayData} {b : WriteBuffer} {schema : Schema}
  {values : List RowScalar} {fits : Bool} {enc : Encode} {ok : Prop} {d : Bytes}

/-- `enc` succeeds on every buffer and appends exactly `d`. -/
def Writes (enc : Encode) (d : Bytes) : Prop := ∀ b, enc b = .ok (b.append d)

/-- A slot's encoder writes the slot's payload, if it has one. -/
def SlotWrites : Option Encode → Option Bytes → Prop
  | none, none => True
  | some enc, some d => Writes enc d
  | _, _ => False

/-- The encoder succeeds on some buffer. -/
def Accepted (enc : Encode) : Prop := ∃ b b', enc b = .ok b'

/-- `enc` writes `d` if `ok`; where the sizes fit, it succeeds only then. -/
structure Encodes (fits : Bool) (enc : Encode) (ok : Prop) (d : Bytes) : Prop where
  writes : ok → Writes enc d
  accepts : fits = true → Accepted enc → ok

/-- The same for one slot, -/
structure SlotEncodes (fits : Bool) (slot : Option Encode) (ok : Prop) (out : Option Bytes) :
    Prop where
  writes : ok → SlotWrites slot out
  accepts : fits = true → (∀ enc, slot = some enc → Accepted enc) → ok

/-- and for a run of them. -/
structure RunEncodes (fits : Bool) (items : List (Option Encode)) (ok : Prop)
    (outs : List (Option Bytes)) : Prop where
  writes : ok → List.Forall₂ SlotWrites items outs
  accepts : fits = true → (∀ enc, some enc ∈ items → Accepted enc) → ok

theorem Encodes.congr {ok' : Prop} {d' : Bytes} (h : Encodes fits enc ok d) (hok : ok' ↔ ok)
    (hd : ok' → d' = d) : Encodes fits enc ok' d' := by
  refine ⟨?_, fun hf hacc => hok.mpr (h.accepts hf hacc)⟩
  intro h'
  rw [hd h']
  exact h.writes (hok.mp h')

theorem Encodes.mono {fits' : Bool} (h : Encodes fits' enc ok d)
    (hfits : fits = true → fits' = true) : Encodes fits enc ok d :=
  ⟨h.writes, fun hf => h.accepts (hfits hf)⟩

theorem encodes_of_writes (hok : ok) (h : Writes enc d) : Encodes fits enc ok d :=
  ⟨fun _ => h, fun _ _ => hok⟩

theorem encodes_of_error (hok : ¬ok) (h : ∀ b, ∃ e, enc b = .error e) : Encodes fits enc ok d := by
  refine ⟨fun h' => absurd h' hok, ?_⟩
  rintro - ⟨b, _, hb⟩
  obtain ⟨e, he⟩ := h b
  rw [he] at hb
  cases hb

/-- One encoder after another. -/
theorem Encodes.bind {enc' : Encode} {ok' : Prop} {d' : Bytes} (h : Encodes fits enc ok d)
    (h' : Encodes fits enc' ok' d') :
    Encodes fits (fun b => enc b >>= enc') (ok ∧ ok') (d ++ d') := by
  constructor
  · rintro ⟨hok, hok'⟩ b
    show enc b >>= enc' = _
    rw [h.writes hok, ok_bind, h'.writes hok', append_append]
  · rintro hf ⟨b, b', hb⟩
    obtain ⟨c, hc, hrest⟩ := bind_eq_ok_iff.mp hb
    exact ⟨h.accepts hf ⟨b, c, hc⟩, h'.accepts hf ⟨c, b', hrest⟩⟩

/-- An encoder behind bytes that are always written. -/
theorem Encodes.behind (h : Encodes fits enc ok d) (e : Bytes) :
    Encodes fits (fun b => enc (b.append e)) ok (e ++ d) := by
  refine ⟨fun hok b => ?_, ?_⟩
  · rw [h.writes hok, append_append]
  · rintro hf ⟨b, b', hb⟩
    exact h.accepts hf ⟨_, b', hb⟩

theorem checkCountFits_ok (h : n < 2 ^ 32) (what : String) :
    checkCountFits n what = .ok () := if_neg (by omega)

/-- An encoder behind the check of a count, which it may rely on. -/
theorem Encodes.checked {enc' : Encode} {what : String} (h : Encodes fits enc ok d)
    (heq : n < 2 ^ 32 → ∀ b, enc' b = enc b) :
    Encodes fits (fun b => checkCountFits n what >>= fun _ => enc' b) (n < 2 ^ 32 ∧ ok) d := by
  by_cases hn : n < 2 ^ 32
  · simp only [checkCountFits_ok hn, ok_bind, heq hn]
    exact h.congr (and_iff_right hn) fun _ => rfl
  · refine encodes_of_error (fun hok => hn hok.1) fun b => ?_
    rw [checkCountFits, if_pos (by omega)]
    exact ⟨_, rfl⟩

/-! ## Runs of slots -/

/-- A null marker for a bitfield of `n` bits laid down right after `pre`. -/
def Marks (setNull : WriteBuffer → Nat → Except Error WriteBuffer) (pre : Bytes) (n : Nat) : Prop :=
  ∀ bf post k, k < n → bf.length = bitfieldBytes n →
    setNull ⟨pre ++ (bf ++ post)⟩ k = .ok ⟨pre ++ (orBit bf k ++ post)⟩

theorem setNull_marks (b : WriteBuffer) (n : Nat) :
    Marks (PositionalWriter.setNull ⟨n, b.position⟩) b.bytes n := by
  intro _ _ k hk hlen
  rw [PositionalWriter.setNull, if_neg (Nat.not_le.mpr hk)]
  exact patchByte_field (hlen ▸ div_lt_bitfieldBytes hk)

theorem setElementNull_marks (b : WriteBuffer) (c n : Nat) :
    Marks (ListContext.setElementNull ⟨b.position, c⟩) b.bytes n := by
  intro _ _ k hk hlen
  exact patchByte_field (hlen ▸ div_lt_bitfieldBytes hk)

/-- The loop invariant of a run of slots: bits up to `k` are in the bitfield and
their payloads behind it. -/
theorem writeSlots_spec {setNull : WriteBuffer → Nat → Except Error WriteBuffer} {pre : Bytes}
    (hset : Marks setNull pre n) {k : Nat} {bf post : Bytes} (h : Forall₂ SlotWrites items outs)
    (hk : k + items.length ≤ n) (hlen : bf.length = bitfieldBytes n) :
    writeSlots setNull items k ⟨pre ++ (bf ++ post)⟩ =
      .ok ⟨pre ++ (orBits bf (outs.map Option.isNone) k ++
        (post ++ outs.flatMap (fun out => out.getD [])))⟩ := by
  induction h generalizing k bf post with
  | nil => simp [writeSlots, orBits]
  | @cons slot out items outs hslot _ ih =>
    rw [length_cons] at hk
    cases slot with
    | none =>
      cases out with
      | none =>
        rw [writeSlots, hset bf post k (by omega) hlen, ok_bind,
          ih (by omega) (by simpa using hlen)]
        simp [orBits]
      | some d => cases hslot
    | some enc =>
      cases out with
      | none => cases hslot
      | some d =>
        have henc : Writes enc d := hslot
        have happ : (⟨pre ++ (bf ++ post)⟩ : WriteBuffer).append d =
            ⟨pre ++ (bf ++ (post ++ d))⟩ := by
          simp [append]
        rw [writeSlots, henc, ok_bind, happ, ih (by omega) hlen]
        simp [orBits]

theorem slots_eq_orBits (h : outs.length = n) :
    orBits (replicate (bitfieldBytes n) 0) (outs.map Option.isNone) 0 ++
      outs.flatMap (fun out => out.getD []) = slots outs := by
  simp [slots, packBits, h]

theorem writeSlots_accepted {setNull : WriteBuffer → Nat → Except Error WriteBuffer} :
    ∀ {items : List (Option Encode)} {k : Nat} {b b' : WriteBuffer},
    writeSlots setNull items k b = .ok b' → ∀ enc, some enc ∈ items → Accepted enc
  | [], _, _, _, _, _, hmem => by cases hmem
  | none :: items, k, b, b', h, enc, hmem => by
    obtain ⟨c, -, hrest⟩ := bind_eq_ok_iff.mp h
    rcases mem_cons.mp hmem with heq | hmem
    · cases heq
    · exact writeSlots_accepted hrest enc hmem
  | some enc' :: items, k, b, b', h, enc, hmem => by
    obtain ⟨c, hc, hrest⟩ := bind_eq_ok_iff.mp h
    rcases mem_cons.mp hmem with heq | hmem
    · cases heq
      exact ⟨b, c, hc⟩
    · exact writeSlots_accepted hrest enc hmem

/-- A run of slots written behind a fresh bitfield is the wire's run of slots. -/
theorem writeSlots_encodes {setNull : WriteBuffer → WriteBuffer → Nat → Except Error WriteBuffer}
    (hset : ∀ b, Marks (setNull b) b.bytes n) (h : RunEncodes fits items ok outs)
    (hn : items.length = n) :
    Encodes fits (fun b => writeSlots (setNull b) items 0 (b.appendZeros (bitfieldBytes n))) ok
      (slots outs) := by
  constructor
  · intro hok b
    have hsl := h.writes hok
    have hsta : b.appendZeros (bitfieldBytes n)
        = ⟨b.bytes ++ (replicate (bitfieldBytes n) 0 ++ [])⟩ := by
      simp [appendZeros, append]
    show writeSlots (setNull b) items 0 (b.appendZeros (bitfieldBytes n)) = _
    rw [hsta, writeSlots_spec (hset b) hsl (by omega) (by simp),
      ← slots_eq_orBits (hsl.length_eq.symm.trans hn)]
    simp [append]
  · rintro hf ⟨b, _, hb⟩
    exact h.accepts hf (writeSlots_accepted hb)

theorem encodeFields_encodes (h : RunEncodes fits items ok outs) (hn : items.length = n) :
    Encodes fits (encodeFields items n) ok (slots outs) :=
  writeSlots_encodes (fun b => setNull_marks b n) h hn

theorem encodeFields_writes (h : Forall₂ SlotWrites items outs) (hn : items.length = n) :
    Writes (encodeFields items n) (slots outs) :=
  have hrun : RunEncodes false items True outs := ⟨fun _ => h, nofun⟩
  (encodeFields_encodes hrun hn).writes trivial

/-- Slots side by side, one for each pair. -/
theorem encodes_zip {α β : Type*} {slot : α → β → Option Encode} {ok : α → β → Prop}
    {out : α → β → Option Bytes} : ∀ {xs : List α} {ys : List β},
    Forall₂ (fun x y => SlotEncodes fits (slot x y) (ok x y) (out x y)) xs ys →
    RunEncodes fits (zipWith slot xs ys) (Forall₂ ok xs ys) (zipWith out xs ys)
  | _, _, .nil => ⟨fun _ => .nil, fun _ _ => .nil⟩
  | x :: xs, y :: ys, .cons h hs => by
    have hrest := encodes_zip hs
    constructor
    · intro hok
      cases hok with
      | cons hx hxs => exact .cons (h.writes hx) (hrest.writes hxs)
    · intro hf hacc
      refine .cons (h.accepts hf fun enc henc => hacc enc ?_)
        (hrest.accepts hf fun enc henc => hacc enc (mem_cons_of_mem _ henc))
      rw [← henc]
      exact mem_cons_self

/-- The values of two lists side by side fit if each pair's does. -/
theorem forall₂_encodable {α : Type*} {R : Field → α → Prop} {val : Field → α → Value} :
    ∀ {fields : List Field} {xs : List α}, fields.length = xs.length →
    (Forall₂ (fun f x => R f x ∧ (val f x).Encodable) fields xs ↔
      Forall₂ R fields xs ∧ ∀ v ∈ zipWith val fields xs, v.Encodable)
  | [], [], _ => by simp
  | f :: fields, x :: xs, hlen => by
    have hrest := @forall₂_encodable _ R val fields xs (by simpa using hlen)
    simp only [forall₂_cons, zipWith_cons_cons, forall_mem_cons, hrest]
    tauto

/-! ## The two loops of a list body -/

theorem setElementNulls_spec {lc : ListContext} {pre : Bytes}
    (hset : Marks lc.setElementNull pre n) :
    ∀ {flags : List Bool} {k : Nat} {bf post : Bytes}, k + flags.length ≤ n →
    bf.length = bitfieldBytes n →
    setElementNulls lc flags k ⟨pre ++ (bf ++ post)⟩ = .ok ⟨pre ++ (orBits bf flags k ++ post)⟩
  | [], _, _, _, _, _ => rfl
  | false :: flags, k, bf, post, hk, hlen => by
    rw [length_cons] at hk
    simpa [setElementNulls, orBits] using setElementNulls_spec hset (k := k + 1) (by omega) hlen
  | true :: flags, k, bf, post, hk, hlen => by
    rw [length_cons] at hk
    simp only [setElementNulls, if_true, hset bf post k (by omega) hlen, ok_bind, orBits]
    exact setElementNulls_spec hset (by omega) (by simpa using hlen)

theorem writePayloads_writes : ∀ {items : List (Option Encode)} {outs : List (Option Bytes)},
    Forall₂ SlotWrites items outs →
    Writes (writePayloads items) (outs.flatMap fun out => out.getD [])
  | _, _, .nil => fun b => by simp [writePayloads]
  | none :: _, none :: _, .cons _ hs => fun b => by
    simpa [writePayloads] using writePayloads_writes hs b
  | some enc :: _, some d :: _, .cons h hs => fun b => by
    rw [writePayloads, h, ok_bind, writePayloads_writes hs]
    simp

/-- Consecutive slots of a values buffer are one piece of it. -/
theorem flatMap_slotBytes (values : Bytes) (w : Nat) : ∀ (count start : Nat),
    (range' start count).flatMap (slotBytes values w) =
      (values.drop (start * w)).take (count * w)
  | 0, start => by simp
  | count + 1, start => by
    rw [range'_succ, flatMap_cons, flatMap_slotBytes values w count (start + 1),
      slotBytes, Nat.succ_mul, Nat.succ_mul, Nat.add_comm (count * w) w, take_add,
      drop_drop]

theorem writePayloads_accepted : ∀ {items : List (Option Encode)} {b b' : WriteBuffer},
    writePayloads items b = .ok b' → ∀ enc, some enc ∈ items → Accepted enc
  | [], _, _, _, _, hmem => by cases hmem
  | none :: items, b, b', h, enc, hmem => by
    rcases mem_cons.mp hmem with heq | hmem
    · cases heq
    · rw [writePayloads] at h
      exact writePayloads_accepted h enc hmem
  | some enc' :: items, b, b', h, enc, hmem => by
    obtain ⟨c, hc, hrest⟩ := bind_eq_ok_iff.mp h
    rcases mem_cons.mp hmem with heq | hmem
    · cases heq
      exact ⟨b, c, hc⟩
    · exact writePayloads_accepted hrest enc hmem

/-! ## The array path -/

/-- Every element of a well-formed array of the type that is not null is written as the wire
says, if its value fits the wire and its dictionary entries are there to be written. -/
def ElementOk (A : Api) (t : DataType) : Prop :=
  ∀ (a : ArrayData) (i : Nat), a.Valid t → i < a.length → a.isNull t i = false →
    Encodes (fixedSizesFit t) (encodeElement A t a i)
      (a.Resolves t i ∧ (a.valueAt t i).Encodable) (wire t (a.valueAt t i))

/-- A null element has no entry to be resolved, and fits. -/
theorem ElementOk.slot {i : Nat} (h : ElementOk A t) (ht : t.carried = true) (hv : a.Valid t)
    (hi : i < a.length) (hfits : fits = true → fixedSizesFit t = true) :
    SlotEncodes fits (elementSlot t (encodeElement A t) a i)
      (a.Resolves t i ∧ (a.valueAt t i).Encodable) (slotOut (wire t) (a.valueAt t i)) := by
  unfold elementSlot
  cases hn : a.isNull t i with
  | true =>
    have hr := resolves_of_isNull hv hi hn
    rw [← valueAt_isNull_of_resolves ht hv hi hr] at hn
    rw [Value.isNull_iff.mp hn]
    exact ⟨fun _ => trivial, fun _ _ => ⟨hr, trivial⟩⟩
  | false =>
    have henc := h a i hv hi hn
    refine ⟨?_, fun hf hacc => henc.accepts (hfits hf) (hacc _ rfl)⟩
    intro hok
    have hnull := (valueAt_isNull_of_resolves ht hv hi hok.1).trans hn
    rw [slotOut_of_not_null hnull]
    exact henc.writes hok

/-- The slots of a run of elements, index by index. -/
theorem ElementOk.run {indices : List Nat} (h : ElementOk A t) (ht : t.carried = true)
    (hv : a.Valid t) (hin : ∀ i ∈ indices, i < a.length)
    (hfits : fits = true → fixedSizesFit t = true) :
    RunEncodes fits (indices.map (elementSlot t (encodeElement A t) a))
      (∀ i ∈ indices, a.Resolves t i ∧ (a.valueAt t i).Encodable)
      ((indices.map (a.valueAt t)).map (slotOut (wire t))) := by
  have hsl : Forall₂ (fun i _ => SlotEncodes fits (elementSlot t (encodeElement A t) a i)
      (a.Resolves t i ∧ (a.valueAt t i).Encodable) (slotOut (wire t) (a.valueAt t i)))
      indices indices :=
    forall₂_same.mpr fun i hi => h.slot ht hv (hin i hi) hfits
  have hzip := encodes_zip hsl
  rw [zipWith_self, zipWith_self, forall₂_same] at hzip
  rwa [List.map_map]

theorem slotBytes_length {ft : FixedType} {s : Slots} {values : Bytes} {i : Nat}
    (hv : (ArrayData.fixed s values).Valid (.fixed ft)) (hi : i < s.length) :
    (slotBytes values ft.width (s.offset + i)).length = ft.width := by
  have hbnd : (s.offset + i) * ft.width + ft.width ≤ values.length := by
    rw [← Nat.succ_mul]
    exact Nat.le_trans (Nat.mul_le_mul_right _ (by omega)) hv
  simp only [slotBytes, length_take, length_drop]
  omega

/-- The bytes of a fixed-width run with no null are one piece of the values buffer. -/
theorem writePayloads_fixed {ft : FixedType} {s : Slots} {values : Bytes} :
    ∀ {indices : List Nat}, (∀ i ∈ indices, s.isNull i = false) → Writes (writePayloads
      (indices.map (elementSlot (.fixed ft) (encodeElement A (.fixed ft)) (.fixed s values))))
      ((indices.map (s.offset + ·)).flatMap (slotBytes values ft.width))
  | [], _ => fun b => by simp [writePayloads]
  | i :: indices, hn => fun b => by
    have hi : (ArrayData.fixed s values).isNull (.fixed ft) i = false := hn i (by simp)
    rw [map_cons, elementSlot, if_neg (by simp [hi]), writePayloads, encodeElement, ok_bind,
      writePayloads_fixed fun j hj => hn j (by simp [hj])]
    simp

/-- **The bulk run** of a list body writes what its elements write one by one. -/
theorem encodeElements_eq (A : Api) (lc : ListContext) (a : ArrayData) (start count : Nat)
    (t : DataType) (b : WriteBuffer) :
    encodeElements lc a start count t (encodeElement A t) b =
      setElementNulls lc ((range' start count).map (a.isNull t)) 0 b >>=
        writePayloads ((range' start count).map (elementSlot t (encodeElement A t) a)) := by
  refine bind_congr fun c => ?_
  dsimp only
  split
  · next hzero =>
    subst hzero
    rfl
  · split
    · next _ s _ =>
      split
      · next hbulk =>
        have hn : ∀ i ∈ range' start count, s.isNull i = false := by
          simp only [Bool.and_eq_true, Bool.not_eq_true', any_map, any_eq_false] at hbulk
          intro i hi
          simpa [ArrayData.isNull, ArrayData.slots] using hbulk.1 i hi
        rw [writePayloads_fixed hn, map_add_range', flatMap_slotBytes]
      · rfl
    · rfl

/-- **A list body is the wire's run of slots.** -/
theorem encodeElements_encodes (h : ElementOk A t) (ht : t.carried = true)
    (hv : a.Valid t) (hin : ∀ i ∈ range' start count, i < a.length) :
    Encodes (fixedSizesFit t)
      (fun b => encodeElements (beginFixedSizeList b count).1 a start count t
        (encodeElement A t) (beginFixedSizeList b count).2)
      (∀ i ∈ range' start count, a.Resolves t i ∧ (a.valueAt t i).Encodable)
      (slots (((range' start count).map (a.valueAt t)).map (slotOut (wire t)))) := by
  have hrun := h.run ht hv hin id
  simp only [encodeElements_eq]
  constructor
  · intro hok b
    have hsta : (beginFixedSizeList b count).2
        = ⟨b.bytes ++ (replicate (bitfieldBytes count) 0 ++ [])⟩ := by
      simp [beginFixedSizeList, appendZeros, append]
    have hflg : (range' start count).map (a.isNull t) =
        ((range' start count).map (a.valueAt t)).map Value.isNull := by
      rw [List.map_map]
      refine map_congr_left fun i hi => ?_
      exact (valueAt_isNull_of_resolves ht hv (hin i hi) (hok i hi).1).symm
    show setElementNulls _ _ 0 (beginFixedSizeList b count).2 >>= _ = _
    rw [hsta]
    show setElementNulls ⟨b.position, count⟩ _ 0 _ >>= _ = _
    rw [setElementNulls_spec (setElementNull_marks b count count) (by simp) (by simp),
      ok_bind, writePayloads_writes (hrun.writes hok), slots_map, hflg]
    simp [packBits, append, flatMap_map, Function.comp_def]
  · rintro hf ⟨b, _, hb⟩
    obtain ⟨c, -, hpay⟩ := bind_eq_ok_iff.mp hb
    exact hrun.accepts hf (writePayloads_accepted hpay)

/-- A fixed-size list: the body alone. -/
theorem encodeFixedSizeList_encodes {item : Field} (h : ElementOk A item.type)
    (ht : item.type.carried = true) (hv : a.Valid item.type)
    (hin : ∀ i ∈ range' start count, i < a.length) :
    Encodes (fixedSizesFit (.fixedSizeList item count)) (fun b =>
        encodeElements (beginFixedSizeList b count).1 a start count item.type
          (encodeElement A item.type) (beginFixedSizeList b count).2)
      ((∀ i ∈ range' start count, a.Resolves item.type i) ∧
        (Value.list ((range' start count).map (a.valueAt item.type))).Encodable)
      (slots (((range' start count).map (a.valueAt item.type)).map
        (slotOut (wire item.type)))) := by
  have hbody := encodeElements_encodes h ht hv hin
  rw [Value.Encodable, Value.allEncodable_iff, length_map, length_range',
    forall_mem_map]
  constructor
  · intro hok
    exact hbody.writes fun i hi => ⟨hok.1 i hi, hok.2.2 i hi⟩
  · intro hf hacc
    rw [fixedSizesFit, sizesBelow, Bool.and_eq_true, decide_eq_true_eq] at hf
    have hrun := hbody.accepts hf.2 hacc
    exact ⟨fun i hi => (hrun i hi).1, hf.1, fun i hi => (hrun i hi).2⟩

theorem beginList_eq (h : n < 2 ^ 32) : b.beginList n = beginFixedSizeList (b.appendU32 n) n := by
  simp only [beginList, beginFixedSizeList, Nat.mod_eq_of_lt h]

/-- A list: the count, and behind it the body. -/
theorem encodeList_encodes {what : String} (h : ElementOk A t)
    (ht : t.carried = true) (hv : a.Valid t) (hin : ∀ i ∈ range' start count, i < a.length) :
    Encodes (fixedSizesFit t) (fun b => checkCountFits count what >>= fun _ =>
        encodeElements (b.beginList count).1 a start count t (encodeElement A t)
          (b.beginList count).2)
      ((∀ i ∈ range' start count, a.Resolves t i) ∧
        (Value.list ((range' start count).map (a.valueAt t))).Encodable)
      (leBytes 4 count ++
        slots (((range' start count).map (a.valueAt t)).map (slotOut (wire t)))) := by
  refine (((encodeElements_encodes h ht hv hin).behind (leBytes 4 count)).checked
    fun hcnt b => ?_).congr ?_ fun _ => rfl
  · rw [beginList_eq hcnt]
    rfl
  · rw [Value.Encodable, Value.allEncodable_iff, length_map, length_range',
      forall_mem_map]
    simp only [forall_and]
    tauto

/-! ## Maps -/

theorem encodeKeys_encodes {keys : ArrayData} (h : ElementOk A t) (hv : keys.Valid t)
    (hfits : fits = true → fixedSizesFit t = true) : ∀ {indices : List Nat},
    (∀ i ∈ indices, i < keys.length) → Encodes fits (encodeKeys t (encodeElement A t) keys indices)
      (∀ i ∈ indices, keys.isNull t i = false ∧ keys.Resolves t i ∧ (keys.valueAt t i).Encodable)
      ((indices.map (keys.valueAt t)).flatMap (wire t))
  | [], _ => encodes_of_writes (by simp) fun b => by simp [encodeKeys]
  | i :: indices, hin => by
    have hrest := encodeKeys_encodes h hv hfits fun j hj => hin j (mem_cons_of_mem i hj)
    cases hn : keys.isNull t i with
    | true =>
      refine encodes_of_error (fun hok => ?_) fun b => ⟨_, by rw [encodeKeys, if_pos hn]⟩
      rw [(hok i mem_cons_self).1] at hn
      cases hn
    | false =>
      have hone := h keys i hv (hin i mem_cons_self) hn
      have hstep : encodeKeys t (encodeElement A t) keys (i :: indices) = fun b =>
          encodeElement A t keys i b >>= encodeKeys t (encodeElement A t) keys indices := by
        funext b
        rw [encodeKeys, if_neg (by simp [hn])]
      rw [hstep]
      refine ((hone.mono hfits).bind hrest).congr ?_ fun _ => rfl
      rw [forall_mem_cons, and_iff_right hn]

theorem encodeMapEntries_encodes {key item : Field} {sorted : Bool} {keys items : ArrayData}
    {off len : Nat} (hk : ElementOk A key.type) (hv : ElementOk A item.type)
    (ht : (DataType.map key item sorted).carried = true) (hkeys : keys.Valid key.type)
    (hits : items.Valid item.type) (hkin : ∀ j ∈ range' off len, j < keys.length)
    (hvin : ∀ j ∈ range' off len, j < items.length) :
    Encodes (fixedSizesFit (.map key item sorted)) (encodeMapEntries key.type item.type
        (encodeElement A key.type) (encodeElement A item.type) keys items off len)
      ((∀ j ∈ range' off len, keys.Resolves key.type j ∧ items.Resolves item.type j) ∧
        (Value.map ((range' off len).map (keys.valueAt key.type))
          ((range' off len).map (items.valueAt item.type))).Encodable)
      (wire (.map key item sorted) (Value.map ((range' off len).map (keys.valueAt key.type))
          ((range' off len).map (items.valueAt item.type)))) := by
  rw [DataType.carried, Bool.and_eq_true] at ht
  have hfits := @Bool.and_eq_true_iff (fixedSizesFit key.type) (fixedSizesFit item.type)
  have hkrun := encodeKeys_encodes hk hkeys (fun h => (hfits.mp h).1) hkin
  have hvrun := writeSlots_encodes (fun b => setElementNull_marks b len len)
    (hv.run ht.2 hits hvin fun h => (hfits.mp h).2) (by simp)
  refine (((hkrun.bind hvrun).behind (leBytes 4 len)).checked fun hlen b => ?_).congr ?_ ?_
  · simp only [beginMap, Nat.mod_eq_of_lt hlen]
    rfl
  · rw [Value.Encodable, Value.allEncodable_iff, Value.allEncodable_iff, length_map,
      length_range', forall_mem_map, forall_mem_map, forall_mem_map]
    have hnull : ∀ j ∈ range' off len, keys.Resolves key.type j →
        (keys.valueAt key.type j).isNull = keys.isNull key.type j := fun j hj hr =>
      valueAt_isNull_of_resolves ht.1 hkeys (hkin j hj) hr
    constructor
    · rintro ⟨hr, hlen, hn, hkenc, hvenc⟩
      refine ⟨hlen, ?_, fun j hj => ⟨(hr j hj).2, hvenc j hj⟩⟩
      intro j hj
      exact ⟨(hnull j hj (hr j hj).1).symm.trans (hn j hj), (hr j hj).1, hkenc j hj⟩
    · rintro ⟨hlen, hks, hvs⟩
      refine ⟨fun j hj => ⟨(hks j hj).2.1, (hvs j hj).1⟩, hlen, ?_, fun j hj => (hks j hj).2.2,
        fun j hj => (hvs j hj).2⟩
      intro j hj
      exact (hnull j hj (hks j hj).2.1).trans (hks j hj).1
  · intro _
    rw [wire, length_map, length_range']

/-- The payload of a union value behind its code. -/
theorem encodes_underCode {mode : UnionMode} {fields : List Field} {codes : List UInt8}
    {code : UInt8} {k : Nat} {f : Field} {v : Value} {R : Prop}
    (h : Encodes fits enc (R ∧ v.Encodable) ([code] ++ wire f.type v))
    (hk : childId codes code = some k) (hf : fields[k]? = some f) (hn : R → v.isNull = false) :
    Encodes fits enc (R ∧ (Value.underCode code v).Encodable)
      (wire (.union mode fields codes) (Value.underCode code v)) := by
  refine h.congr (and_congr_right fun hr => ?_) fun hok => ?_
  · rw [Value.underCode_of_not_null (hn hr), Value.Encodable]
  · rw [Value.underCode_of_not_null (hn hok.1), wire_union hk hf]
    rfl

/-! ## Fields side by side -/

/-- The fields of a struct element, of a struct scalar and of a row. -/
theorem encodeFields_zip {α : Type*} {slot : Field → α → Option Encode} {R : Field → α → Prop}
    {val : Field → α → Value} {fields : List Field} {xs : List α}
    (h : Forall₂ (fun f x => SlotEncodes fits (slot f x) (R f x ∧ (val f x).Encodable)
      (slotOut (wire f.type) (val f x))) fields xs) :
    Encodes fits (encodeFields (zipWith slot fields xs) fields.length)
      (Forall₂ R fields xs ∧ ∀ v ∈ zipWith val fields xs, v.Encodable)
      (slots (zipWith slotOut (wires fields) (zipWith val fields xs))) := by
  rw [wires_eq_map, zipWith_map_left, zipWith_zipWith h fun f _ x _ => rfl,
    ← forall₂_encodable h.length_eq]
  exact encodeFields_encodes (encodes_zip h) (by simp [h.length_eq])

theorem fits_struct {fields : List Field} {f : Field} (hf : f ∈ fields)
    (h : fixedSizesFit (.struct fields) = true) : fixedSizesFit f.type = true :=
  fieldsSizesBelow_iff.mp h f hf

theorem fieldElements_eq_map (A : Api) : ∀ fields, fieldElements A fields =
    fields.map (fun f => elementSlot f.type (encodeElement A f.type))
  | [] => rfl
  | ⟨_, t, _⟩ :: fs => by rw [fieldElements, fieldElements_eq_map A fs]; rfl

theorem childElements_eq_map (A : Api) : ∀ fields, childElements A fields =
    fields.map (fun f => encodeElement A f.type)
  | [] => rfl
  | ⟨_, t, _⟩ :: fs => by rw [childElements, childElements_eq_map A fs]; rfl

/-- **The array path writes the wire format.** -/
theorem encodeElement_encodes (A : Api) (t : DataType) (ht : t.carried = true) : ElementOk A t := by
  intro a i h hi hn
  induction ht using DataType.carried_rec generalizing a i with
  | dictionary index t ordered _ ih =>
    cases a with
    | dictionary s indices values =>
      change s.isNull i = false at hn
      obtain ⟨hv, hlt⟩ := dictionary_entry h hi hn
      have hleaf : values.Resolves t (indices.getD (s.offset + i) 0) := by
        cases t <;> trivial
      rw [valueAt, if_neg (by simp [hn]), wire, Resolves, imp_iff_right hn]
      cases hent : values.isNull t (indices.getD (s.offset + i) 0) with
      | true =>
        exact encodes_of_error (by simp) fun b => ⟨_, if_pos hent⟩
      | false =>
        have hstep : encodeElement A (.dictionary index t ordered)
            (.dictionary s indices values) i =
            encodeElement A t values (indices.getD (s.offset + i) 0) := by
          funext b
          exact if_neg (Bool.eq_false_iff.mp hent)
        rw [hstep]
        refine (ih values _ hv hlt hent).congr ?_ fun _ => rfl
        rw [and_iff_right rfl, and_iff_right hleaf]
    | _ => cases h
  | bool =>
    cases a with
    | bool s values =>
      change s.isNull i = false at hn
      rw [valueAt, if_neg (by simp [hn])]
      refine encodes_of_writes ⟨trivial, trivial⟩ fun b => ?_
      rw [encodeElement, wire]
      rfl
    | _ => cases h
  | fixed t =>
    cases a with
    | fixed s values =>
      change s.isNull i = false at hn
      rw [valueAt, if_neg (by simp [hn])]
      refine encodes_of_writes ⟨trivial, trivial⟩ fun b => ?_
      rw [encodeElement, wire, FixedValue.ofBytes_repr (slotBytes_length h hi)]
    | _ => cases h
  | var t =>
    rw [ArrayData.isNull] at hn
    · have hview : ∃ v, a.getView i = some v := by
        cases a with
        | binary s offsets _ => exact ⟨_, rfl⟩
        | view s _ =>
          simp only [Valid, ArrayData.length, ArrayData.slots] at h hi
          exact ⟨_, getElem?_eq_getElem (by omega)⟩
        | _ => cases h
      obtain ⟨v, hv⟩ := hview
      have hstep : encodeElement A (.var t) a i = fun b =>
          checkCountFits v.length "variable-length element" >>= fun _ => .ok (b.writeBinary v) := by
        funext b
        rw [encodeElement, hv]
      rw [valueAt, if_neg (by simp [hn]), hv, hstep, Option.getD_some]
      refine ((encodes_of_writes trivial fun b => ?_).checked fun _ _ => rfl).congr
        (and_comm (a := True)) fun _ => rfl
      simp [writeBinary, appendU32, wire]
    · simp
  | struct fields ht ih =>
    cases a with
    | struct s _ =>
      change s.isNull i = false at hn
      rw [valueAt_struct hn, wire, Value.Encodable, Value.allEncodable_iff,
        Resolves, imp_iff_right hn, fieldsResolve_eq_map,
        forall₂_map_left_iff]
      have hfs := encodeFields_zip (forall₂_imp_mem (valid_struct.mp h)
        fun f hf c hc => ElementOk.slot (ih f hf) (fieldsCarried_iff.mp ht f hf)
          (valid_slice hc.1 hc.2)
          (by rwa [length_slice]) (fits_struct hf))
      -- the children are windowed to the struct: slot `i` is slot `offset + i` of the raw child
      simp only [resolves_slice, valueAt_slice] at hfs
      simp only [encodeElement, fieldElements_eq_map, ArrayData.fields, zipWith_map]
      exact hfs
    | _ => cases h
  | list _ item ht ih =>
    cases a with
    | list s offsets values =>
      change s.isNull i = false at hn
      rw [valueAt, if_neg (by simp [hn]), Resolves, imp_iff_right hn, wire,
        length_map, length_range']
      exact encodeList_encodes ih ht h.2 fun j hj => valueRange_lt h.1 hi hj
    | _ => cases h
  | fixedSizeList item n ht ih =>
    cases a with
    | fixedSizeList s values =>
      change s.isNull i = false at hn
      rw [valueAt, if_neg (by simp [hn]), Resolves, imp_iff_right hn, wire]
      exact encodeFixedSizeList_encodes ih ht h.2 fun j hj => fixedRange_lt h.1 hi hj
    | _ => cases h
  | map _ item _ ht ihk ihv =>
    cases a with
    | map s offsets _ _ =>
      obtain ⟨hk, hv, hkeys, hits⟩ := h
      change s.isNull i = false at hn
      rw [valueAt, if_neg (by simp [hn]), Resolves, imp_iff_right hn]
      exact encodeMapEntries_encodes ihk ihv ht hkeys hits
        (fun j hj => valueRange_lt hk hi hj)
        (fun j hj => valueRange_lt hv hi hj)
    | _ => cases h
  | union mode fields codes ht ih =>
    obtain ⟨u, f, hu, hf, hv, hlt⟩ := unionSlot_valid h hi
    have hmem := mem_of_getElem? hf
    obtain ⟨hcv, hclt, hcval⟩ := unionField_valid h hi hu hv hlt
    rw [isNull_union hu hf, ← unionField_isNull hu] at hn
    have hch := (ih f hmem _ _ hcv hclt hn).mono (fits_struct hmem)
    have hstep : encodeElement A (.union mode fields codes) a i = fun b =>
        encodeElement A f.type (a.unionField u i).1 (a.unionField u i).2 (b.append [u.code]) := by
      funext b
      rw [encodeElement, hu]
      simp only [childElements_eq_map, getElem?_map, hf, Option.map_some]
      rfl
    rw [hstep, valueAt_union hu hf, resolves_union hu hf,
      ← unionField_resolves hu, ← hcval]
    refine encodes_underCode (hch.behind [u.code]) (unionSlot_childId hu) hf ?_
    intro hr
    rw [valueAt_isNull_of_resolves ((carried_union.mp ht).2 f hmem) hcv hclt hr, hn]

/-! ## The scalar path -/

theorem scalarEncoders_eq_map (A : Api) : ∀ fields, scalarEncoders A fields =
    fields.map (fun f => encodeScalarValue A f.type)
  | [] => rfl
  | ⟨_, t, _⟩ :: fs => by rw [scalarEncoders, scalarEncoders_eq_map A fs]; rfl

theorem checkStructurallyValid_ok (hA : A.Lawful)
    (h : a.Valid t) (what : String) : checkStructurallyValid A t a what = .ok () := by
  rw [checkStructurallyValid, hA.validate_ok t a h]

/-- A scalar of a dictionary's value type is a leaf. -/
theorem encodeScalarValue_leaf (ht : t.dictionaryValue = true)
    {s : Scalar} (h : s.Valid t) : encodeScalarValue A t s = encodeLeaf s := by
  cases t with
  | bool | fixed _ | var _ =>
    funext b
    cases s <;> first | rfl | cases h
  | _ => cases ht

/-- A dictionary scalar is written as the entry it points at, if that is there. -/
theorem encodeScalar_dictionary (ht : t.dictionaryValue = true) (index : Option Nat)
    {values : ArrayData} (hv : values.Valid t) :
    (∃ k leaf, index = some k ∧ k < values.length ∧ values.isNull t k = false ∧ leaf.Valid t ∧
        leaf.isNull = false ∧ leaf.valueOf t = values.valueAt t k ∧
        encodeScalar A (.dictionary t index values) = encodeLeaf leaf) ∨
      (¬∃ k, index = some k ∧ k < values.length ∧ values.isNull t k = false) ∧
        ∀ b, ∃ e, encodeScalar A (.dictionary t index values) b = .error e := by
  have hsupported : ensureDictionaryValueSupported A t = .ok () := by
    cases t <;> first | rfl | cases ht
  simp only [funext_iff, encodeScalar, hsupported, ok_bind]
  cases index with
  | none => exact .inr ⟨by simp, fun b => ⟨_, rfl⟩⟩
  | some k =>
    obtain ⟨leaf, hleaf, hlv, hlnull, hread⟩ := Scalar.leafAt_eq (.inl ht) hv (k := k)
    by_cases hlt : k < values.length
    · simp only [Scalar.getEncodedValue, if_pos hlt, hleaf]
      cases hn : leaf.isNull with
      | true =>
        rw [hn] at hlnull
        exact .inr ⟨by simp [← hlnull], fun b => ⟨_, rfl⟩⟩
      | false =>
        exact .inl ⟨k, leaf, rfl, hlt, hlnull.symm.trans hn, hlv, hn, hread, fun b => rfl⟩
    · simp only [Scalar.getEncodedValue, if_neg hlt]
      exact .inr ⟨by simp [hlt], fun b => ⟨_, rfl⟩⟩

/-- Every well-formed scalar of the type that is not null is written as the wire says, if its
value fits the wire and its dictionary entries are there to be written. -/
def ScalarOk (A : Api) (t : DataType) : Prop :=
  ∀ s : Scalar, s.Valid t → s.isNull = false →
    Encodes (fixedSizesFit t) (encodeScalarValue A t s) (s.Resolves t ∧ (s.valueOf t).Encodable)
      (wire t (s.valueOf t))

theorem ScalarOk.slot {s : Scalar} (h : ScalarOk A t) (ht : t.carried = true) (hv : s.Valid t)
    (hfits : fits = true → fixedSizesFit t = true) :
    SlotEncodes fits (scalarSlot (encodeScalarValue A t) s)
      (s.Resolves t ∧ (s.valueOf t).Encodable) (slotOut (wire t) (s.valueOf t)) := by
  unfold scalarSlot
  cases hn : s.isNull with
  | true =>
    rw [Scalar.isNull_iff.mp hn, Scalar.valueOf_null]
    exact ⟨fun _ => trivial, fun _ _ => ⟨by cases t <;> trivial, trivial⟩⟩
  | false =>
    have henc := h s hv hn
    refine ⟨?_, fun hf hacc => henc.accepts (hfits hf) (hacc _ rfl)⟩
    intro hok
    rw [slotOut_of_not_null ((Scalar.valueOf_isNull_of_resolves ht hv hok.1).trans hn)]
    exact henc.writes hok

/-- **The scalar path writes the wire format.** -/
theorem encodeScalarValue_encodes (hA : A.Lawful) (t : DataType) (ht : t.carried = true) :
    ScalarOk A t := by
  intro s h hn
  induction ht using DataType.carried_rec generalizing s with
  | dictionary index t ordered ht ih =>
    have hres : ∀ leaf : Scalar, leaf.Resolves t := fun leaf => by cases t <;> trivial
    have hgo : encodeScalarValue A (.dictionary index t ordered) s = encodeScalar A s := by
      cases s <;> rfl
    rw [hgo, wire]
    rcases Scalar.valid_dictionary h with ⟨k, values, rfl, hv⟩ | ⟨hs, hval, hr, hpln⟩
    · rcases encodeScalar_dictionary (A := A) ht k hv with
        ⟨k, leaf, rfl, hlt, hent, hlv, hlnull, hread, hgo⟩ | ⟨hnone, herr⟩
      · rw [hgo, ← encodeScalarValue_leaf ht hlv]
        show Encodes _ _ (_ ∧ (values.valueAt t k).Encodable) (wire t (values.valueAt t k))
        rw [← hread]
        exact (ih leaf hlv hlnull).congr
          (and_congr_left' (iff_of_true ⟨k, rfl, hlt, hent⟩ (hres leaf))) fun _ => rfl
      · exact encodes_of_error (fun hok => hnone hok.1) herr
    · have hleaf : encodeScalar A s = encodeScalarValue A t s := by
        rw [encodeScalarValue_leaf ht hs]
        funext b
        cases s with
        | dictionary t k values => exact absurd rfl (hpln t k values)
        | _ => rfl
      rw [hleaf, hval]
      exact (ih s hs hn).congr (and_congr_left' (iff_of_true hr (hres s))) fun _ => rfl
  | bool =>
    cases s with
    | null => cases hn
    | bool v => exact encodes_of_writes ⟨trivial, trivial⟩ fun b => rfl
    | _ => cases h
  | fixed t =>
    cases s with
    | null => cases hn
    | fixed v => exact encodes_of_writes ⟨trivial, trivial⟩ fun b => rfl
    | _ => cases h
  | var t =>
    cases s with
    | null => cases hn
    | binary _ data =>
      rw [encodeScalarValue_leaf rfl h]
      by_cases hfit : 2 ^ 32 - 1 < data.length
      · refine encodes_of_error (fun hok => ?_) fun b => ⟨_, if_pos hfit⟩
        have hlen : data.length < 2 ^ 32 := hok.2
        omega
      · refine encodes_of_writes ⟨trivial, ?_⟩ fun b => ?_
        · show data.length < 2 ^ 32
          omega
        · rw [encodeLeaf, if_neg hfit]
          simp [appendU32, Scalar.valueOf, wire]
    | _ => cases h
  | struct fields ht ih =>
    cases s with
    | null => cases hn
    | struct cs =>
      rw [Scalar.valueOf_struct, wire, Value.Encodable, Value.allEncodable_iff,
        Scalar.Resolves, Scalar.fieldsResolve_eq_map, forall₂_map_left_iff]
      have hfs := encodeFields_zip (forall₂_imp_mem (Scalar.valid_struct.mp h)
        fun f hf c hv => ScalarOk.slot (ih f hf) (fieldsCarried_iff.mp ht f hf) hv
          (fits_struct hf))
      simp only [encodeScalarValue, scalarEncoders_eq_map, zipWith_map_left]
      exact hfs
    | _ => cases h
  | list _ item ht ih =>
    cases s with
    | null => cases hn
    | list a =>
      simp only [encodeScalarValue, checkStructurallyValid_ok hA (t := item.type) h, ok_bind]
      rw [Scalar.valueOf, Scalar.readAll_eq, wire, length_map, length_range']
      exact encodeList_encodes (encodeElement_encodes A item.type ht) ht h (by simp)
    | _ => cases h
  | fixedSizeList item n ht ih =>
    cases s with
    | null => cases hn
    | list a =>
      obtain ⟨hv, rfl⟩ := h
      simp only [encodeScalarValue, checkStructurallyValid_ok hA (t := item.type) hv, ok_bind,
        if_true]
      rw [Scalar.valueOf, Scalar.readAll_eq, wire]
      exact encodeFixedSizeList_encodes (encodeElement_encodes A item.type ht) ht hv (by simp)
    | _ => cases h
  | map key item _ ht _ _ =>
    cases s with
    | null => cases hn
    | map _ =>
      have hents := h
      obtain ⟨s, _, _, rfl, hkv, hiv, hkl, hil⟩ := Scalar.valid_map h
      obtain ⟨htk, htv⟩ := carried_map.mp ht
      simp only [encodeScalarValue,
        checkStructurallyValid_ok hA (t := .struct [key, item]) hents, ok_bind]
      rw [Scalar.valueOf, Scalar.readAll_eq, Scalar.readAll_eq]
      exact encodeMapEntries_encodes (encodeElement_encodes A key.type htk)
        (encodeElement_encodes A item.type htv) ht (valid_slice hkv hkl)
        (valid_slice hiv hil) (by simp) (by simp)
    | _ => cases h
  | union mode fields codes ht ih =>
    obtain ⟨code, k, f, c, hk, hf, hv, hcn, hval, hshp⟩ := Scalar.valid_union h hn
    have hmem := mem_of_getElem? hf
    have hch := (ih f hmem c hv hcn).mono
      (fits_struct hmem)
    have hstep : encodeScalarValue A (.union mode fields codes) s = fun b =>
        encodeScalarValue A f.type c (b.append [code]) := by
      funext b
      rcases hshp with ⟨rfl, cs, rfl, hc⟩ | ⟨rfl, rfl⟩
      · rw [encodeScalarValue, hk]
        simp only [scalarEncoders_eq_map, getElem?_map, hf, hc, Option.map_some]
        rfl
      · rw [encodeScalarValue, hk]
        simp only [scalarEncoders_eq_map, getElem?_map, hf, Option.map_some]
        rfl
    rw [hstep, hval, Scalar.resolves_child hk hf hshp]
    refine encodes_underCode (hch.behind [code]) hk hf fun hr => ?_
    rw [Scalar.valueOf_isNull_of_resolves ((carried_union.mp ht).2 f hmem) hv hr, hcn]

/-! ## Rows -/

/-- A row whose scalars have the schema's types. A null needs none. -/
def RowValid (schema : Schema) (values : List RowScalar) : Prop :=
  List.Forall₂ (fun f s => (s.value.isNull = false → s.type = f.type) ∧ s.value.Valid f.type)
    schema values

/-- A row `EncodeRow` has no type error for: a dictionary field may also be given as another
dictionary of its value type, or as the plain value. -/
def RowGiven (A : Api) (schema : Schema) (values : List RowScalar) : Prop :=
  List.Forall₂ (fun f s => (s.value.isNull = false → typeOk A f.type s.type = true) ∧
    s.value.Valid f.type) schema values

/-- Every dictionary entry the row is read through is there and not null. -/
def RowResolves (schema : Schema) (values : List RowScalar) : Prop :=
  List.Forall₂ (fun f s => s.value.Resolves f.type) schema values

/-- The logical values of a row. -/
def rowOf (schema : Schema) (values : List RowScalar) : Row :=
  List.zipWith (fun f s => s.value.valueOf f.type) schema values

theorem typeOk_self (hA : A.Lawful) (t : DataType) : typeOk A t t = true := by
  simp [typeOk, hA.equals_self]

theorem RowValid.given (hA : A.Lawful) (h : RowValid schema values) : RowGiven A schema values :=
  h.imp fun f s ⟨hty, hv⟩ => ⟨fun hn => by rw [hty hn]; exact typeOk_self hA f.type, hv⟩

theorem RowGiven.resolves
    (h : RowGiven A schema values) (ht : ∀ f ∈ schema, f.type.supported = true) :
    RowResolves schema values :=
  forall₂_imp_mem h fun f hf _ hs => Scalar.resolves_of_supported (ht f hf) hs.2

/-- One field of a row. -/
theorem encodeRowField_encodes (hA : A.Lawful) {f : Field} {s : RowScalar}
    (ht : f.type.carried = true)
    (h : (s.value.isNull = false → typeOk A f.type s.type = true) ∧ s.value.Valid f.type)
    (hfits : fits = true → fixedSizesFit f.type = true) :
    SlotEncodes fits (encodeRowField A f s)
      (s.value.Resolves f.type ∧ (s.value.valueOf f.type).Encodable)
      (slotOut (wire f.type) (s.value.valueOf f.type)) := by
  have hfld : encodeRowField A f s = scalarSlot (encodeScalarValue A f.type) s.value := by
    unfold encodeRowField scalarSlot
    cases hn : s.value.isNull with
    | true => rfl
    | false => simp only [h.1 hn, if_true]
  rw [hfld]
  exact (encodeScalarValue_encodes hA f.type ht).slot ht h.2 hfits

/-- **`EncodeRow` writes the wire format of the row's logical values**, its dictionaries
resolved, if they fit. -/
theorem encodeRow_encodes (hA : A.Lawful) (ht : ∀ f ∈ schema, f.type.carried = true)
    (hv : RowGiven A schema values)
    (hfits : fits = true → ∀ f ∈ schema, fixedSizesFit f.type = true) :
    Encodes fits (encodeRowInto A schema values)
      (RowResolves schema values ∧ ∀ v ∈ rowOf schema values, v.Encodable)
      (wireRow schema (rowOf schema values)) := by
  have hrow := encodeFields_zip (forall₂_imp_mem hv fun f hf s hs =>
    encodeRowField_encodes hA (ht f hf) hs fun hfit => hfits hfit f hf)
  have hstep : encodeRowInto A schema values = encodeFields
      (zipWith (encodeRowField A) schema values) schema.length := by
    funext b
    exact if_pos hv.length_eq.symm
  rw [hstep]
  exact hrow

theorem encodeRow_eq_wireRow_of_resolves (hA : A.Lawful) (ht : ∀ f ∈ schema, f.type.carried = true)
    (hv : RowGiven A schema values) (hr : RowResolves schema values)
    (henc : ∀ v ∈ rowOf schema values, v.Encodable) :
    encodeRow A schema values = .ok (wireRow schema (rowOf schema values)) := by
  have hrow := (encodeRow_encodes hA ht hv fun h : false = true => nomatch h).writes ⟨hr, henc⟩
    .empty
  rw [encodeRow, hrow]
  rfl

theorem encodeRow_eq_wireRow (hA : A.Lawful) (ht : ∀ f ∈ schema, f.type.supported = true)
    (hv : RowValid schema values) (henc : ∀ v ∈ rowOf schema values, v.Encodable) :
    encodeRow A schema values = .ok (wireRow schema (rowOf schema values)) := by
  have hgiv := hv.given hA
  exact encodeRow_eq_wireRow_of_resolves hA (fun f hf => DataType.carried_of_supported (ht f hf))
    hgiv (hgiv.resolves ht) henc

/-- **`EncodeRow` accepts exactly the rows that fit the wire** and whose dictionary entries are
there to be written. -/
theorem encodeRow_ok_iff_resolves (hA : A.Lawful)
    (ht : ∀ f ∈ schema, f.type.carried = true) (hfit : ∀ f ∈ schema, fixedSizesFit f.type = true)
    (hv : RowGiven A schema values) {bytes : Bytes} :
    encodeRow A schema values = .ok bytes ↔
      RowResolves schema values ∧ (∀ v ∈ rowOf schema values, v.Encodable) ∧
        bytes = wireRow schema (rowOf schema values) := by
  constructor
  · intro h
    have hrow : RowResolves schema values ∧ ∀ v ∈ rowOf schema values, v.Encodable := by
      rw [encodeRow, map_eq_ok_iff] at h
      obtain ⟨b, hb, -⟩ := h
      exact (encodeRow_encodes hA ht hv fun _ : true = true => hfit).accepts rfl ⟨_, b, hb⟩
    rw [encodeRow_eq_wireRow_of_resolves hA ht hv hrow.1 hrow.2] at h
    exact ⟨hrow.1, hrow.2, (Except.ok.inj h).symm⟩
  · rintro ⟨hr, henc, rfl⟩
    exact encodeRow_eq_wireRow_of_resolves hA ht hv hr henc

/-- Without dictionaries, exactly the rows that fit the wire. -/
theorem encodeRow_ok_iff (hA : A.Lawful)
    (ht : ∀ f ∈ schema, f.type.supported = true) (hfit : ∀ f ∈ schema, fixedSizesFit f.type = true)
    (hv : RowValid schema values) {bytes : Bytes} :
    encodeRow A schema values = .ok bytes ↔
      (∀ v ∈ rowOf schema values, v.Encodable) ∧ bytes = wireRow schema (rowOf schema values) := by
  have hgiv := hv.given hA
  rw [encodeRow_ok_iff_resolves hA (fun f hf => DataType.carried_of_supported (ht f hf)) hfit hgiv]
  exact and_iff_right (hgiv.resolves ht)

end Fletcher.Bridge
