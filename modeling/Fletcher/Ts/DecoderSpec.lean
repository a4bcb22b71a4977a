import Fletcher.Ts.Decoder

/-!
# What the TypeScript decoder makes of a value's bytes

`decodeValue_meets`: where the bytes of a value stand, the decoder returns something that shows
the value exactly when the value is `Clean` and the bits of its bitfields are read for what they
are. The induction is on the Arrow type, and one loop lemma (`decodeSlots_meets`) serves
records, arrays and the values of maps.
-/

namespace Fletcher.Ts

open Lib Arrow Bridge Cursor List FieldDescriptor

variable {t : DataType} {pos : Nat} {fds : List FieldDescriptor} {vals : List Js}

variable {vs : List Value} {fd : FieldDescriptor} {b : Bytes} {v : Value}

section

variable {R : Runtime} {data : Bytes}

/-- The results of a run show the values of its slots. -/
def SlotsShow (R : Runtime) : List FieldDescriptor → List Js → List Value → Prop
  | [], jss, vs => jss = [] ∧ vs = []
  | fd :: fds, jss, vs => ∃ js jss' v vs', jss = js :: jss' ∧ vs = v :: vs' ∧
    SlotShows .made (Shows R .made fd) js v ∧ SlotsShow R fds jss' vs'

/-- The values of a run are clean where they are there. -/
def SlotsClean (R : Runtime) (fds : List FieldDescriptor) (vs : List Value) : Prop :=
  List.Forall₂ (fun c v => v.isNull = false → c v) (cleanFields R fds) vs

/-- What the recursion provides about values of a type and its descriptor. -/
def ReadsAs (R : Runtime) (data : Bytes) (t : DataType) (fd : FieldDescriptor) : Prop :=
  ∀ pos b v, At data pos b → Denotes t b v → Meets (decodeValue R data fd) pos b.length
    (Clean R fd v ∧ BitsRead data (runs t v pos)) fun js => Shows R .made fd js v

/-! ## Runs of slots -/

/-- One slot: its bit has to be right, and what is behind it, if anything is. -/
theorem slot_meets (h : ReadsAs R data t fd) (hat : At data pos b)
    (hb : if v.isNull then b = [] else Denotes t b v) (off i : Nat) :
    Meets (decodeSlot data off (decodeValue R data fd) i) pos b.length
      (isNullBit data off i = v.isNull ∧ (v.isNull = false → Clean R fd v) ∧
        BitsRead data (itemRuns [slotItem (wire t) (runs t) v] pos))
      fun js => SlotShows .made (Shows R .made fd) js v := by
  unfold decodeSlot
  generalize isNullBit data off i = flag
  cases hn : v.isNull with
  | true =>
    rw [hn, if_pos rfl] at hb
    subst hb
    have hruns : itemRuns [slotItem (wire t) (runs t) v] pos = [] := by
      rw [slotItem, if_pos hn]
      rfl
    have hshow : ∀ js, SlotShows .made (Shows R .made fd) js v ↔ js = .null := by
      intro js
      rw [SlotShows, if_pos hn]
      rfl
    constructor
    · intro js pos' hx hjs
      rw [hshow] at hjs
      refine ⟨?_, fun h => absurd h (by simp), hruns ▸ bitsRead_nil⟩
      cases flag with
      | true => rfl
      | false => exact absurd hjs (decodeValue_ne_null hx)
    · rintro ⟨rfl, -⟩
      exact ⟨.null, rfl, (hshow .null).mpr rfl⟩
  | false =>
    rw [hn, if_neg (by simp)] at hb
    have hruns : itemRuns [slotItem (wire t) (runs t) v] pos = runs t v pos := by
      rw [slotItem, if_neg (by simp [hn])]
      exact append_nil _
    have hshow : ∀ js, SlotShows .made (Shows R .made fd) js v ↔ Shows R .made fd js v := by
      intro js
      rw [SlotShows, if_neg (by simp [hn])]
    have hvalue := h pos b v hat hb
    constructor
    · intro js pos' hx hjs
      rw [hshow] at hjs
      cases flag with
      | true =>
        obtain ⟨rfl, -⟩ := pure_eq_ok.mp hx
        exact absurd hjs.isNullish_eq (by simp [Js.isNullish])
      | false =>
        obtain ⟨hcln, hbits⟩ := hvalue.sound js pos' hx hjs
        exact ⟨rfl, fun _ => hcln, hruns ▸ hbits⟩
    · rintro ⟨rfl, hcln, hbits⟩
      obtain ⟨js, hx, hjs⟩ := hvalue.complete ⟨hcln rfl, hruns ▸ hbits⟩
      exact ⟨js, hx, (hshow js).mpr hjs⟩

theorem decodeSlots_length {off : Nat} : ∀ {xs : List (ReadCursor Js)} {i pos pos' : Nat}
    {jss : List Js}, decodeSlots data off xs i pos = .ok (jss, pos') → jss.length = xs.length
  | [], _, _, _, _, h => by
    obtain ⟨rfl, -⟩ := pure_eq_ok.mp h
    rfl
  | x :: xs, i, pos, pos', jss, h => by
    obtain ⟨_, _, -, h⟩ := bind_eq_ok.mp h
    obtain ⟨_, _, hjss, hret⟩ := bind_eq_ok.mp h
    obtain ⟨rfl, -⟩ := pure_eq_ok.mp hret
    rw [length_cons, length_cons, decodeSlots_length hjss]

theorem decodeRun_length {xs : List (ReadCursor Js)} {pos' : Nat} {jss : List Js}
    (h : decodeRun data xs pos = .ok (jss, pos')) : jss.length = xs.length := decodeSlots_length h

theorem slotsClean_cons : SlotsClean R (fd :: fds) (v :: vs) ↔
      (v.isNull = false → Clean R fd v) ∧ SlotsClean R fds vs := by
  unfold SlotsClean
  rw [cleanFields]
  exact forall₂_cons

/-- The bits of a run, the first one apart. -/
theorem bits_cons {off i : Nat} :
    (∀ k flag, ((v :: vs).map Value.isNull)[k]? = some flag → isNullBit data off (i + k) = flag) ↔
      isNullBit data off i = v.isNull ∧ ∀ k flag, (vs.map Value.isNull)[k]? = some flag →
        isNullBit data off (i + 1 + k) = flag := by
  constructor
  · intro hall
    refine ⟨hall 0 _ rfl, fun k flag hk => ?_⟩
    have hbit := hall (k + 1) flag hk
    rwa [Nat.add_assoc, Nat.add_comm 1 k]
  · rintro ⟨hfst, hall⟩ k flag hk
    cases k with
    | zero =>
      cases hk
      exact hfst
    | succ k =>
      have hbit := hall k flag hk
      rwa [Nat.add_assoc, Nat.add_comm 1 k] at hbit

/-- The bitfields of payloads, the first one apart. -/
theorem itemRuns_cons {f : Field} {fields : List Field}
    (hb : if v.isNull then b = [] else Denotes f.type b v) :
    itemRuns (fieldItems (f :: fields) (v :: vs)) pos =
      itemRuns [slotItem (wire f.type) (runs f.type) v] pos ++
        itemRuns (fieldItems fields vs) (pos + b.length) := by
  rw [fieldItems, zipWith_cons_cons, ← fieldItems]
  cases hn : v.isNull with
  | true =>
    rw [hn, if_pos rfl] at hb
    rw [slotItem, if_pos hn, hb]
    rfl
  | false =>
    rw [hn, if_neg (by simp)] at hb
    rw [slotItem, if_neg (by simp [hn]), hb.length_eq]
    simp only [itemRuns, append_nil]

/-- The loop. The payloads stand from the cursor on; the bitfield is wherever it was. -/
theorem decodeSlots_meets (off : Nat) : ∀ {fields : List Field} {fds : List FieldDescriptor}
    {vs : List Value} (i : Nat) {pos : Nat} {body : Bytes},
    Forall₂ (fun f fd => ReadsAs R data f.type fd) fields fds → At data pos body →
      Payloads (denotes fields) body vs →
    Meets (decodeSlots data off (fds.map (decodeValue R data)) i) pos body.length
      ((∀ k flag, (vs.map Value.isNull)[k]? = some flag → isNullBit data off (i + k) = flag) ∧
        SlotsClean R fds vs ∧ BitsRead data (itemRuns (fieldItems fields vs) pos))
      fun jss => SlotsShow R fds jss vs
  | [], [], _, i, pos, _, .nil, _, hpay => by
    obtain ⟨rfl, rfl⟩ := hpay
    refine meets_pure ⟨fun _ => ⟨?_, .nil, bitsRead_nil⟩, fun _ => ⟨rfl, rfl⟩⟩
    intro k flag hk
    cases hk
  | f :: fields, fd :: fds, _, i, pos, _, .cons h hs, hat, hpay => by
    obtain ⟨b, body, v, vs, rfl, rfl, hb, hbody⟩ := hpay
    have hfst := slot_meets h hat.left hb off i
    have hrest := decodeSlots_meets off (i + 1) hs hat.right hbody
    rw [length_append]
    refine ((hfst.cons hrest).congr ?_).of_iff fun jss => ?_
    · rw [itemRuns_cons hb, bitsRead_append, bits_cons, slotsClean_cons]
      tauto
    · constructor
      · rintro ⟨js, jss, rfl, hjs, hjss⟩
        exact ⟨js, jss, v, vs, rfl, rfl, hjs, hjss⟩
      · rintro ⟨js, jss, _, _, rfl, heq, hjs, hjss⟩
        cases heq
        exact ⟨js, jss, rfl, hjs, hjss⟩

/-- A run of slots, from its bitfield on. -/
theorem decodeRun_meets {fields : List Field}
    (h : Forall₂ (fun f fd => ReadsAs R data f.type fd) fields fds) (hat : At data pos b)
    (hb : DenotesSlots (denotes fields) b vs) :
    Meets (decodeRun data (fds.map (decodeValue R data))) pos b.length
      (SlotsClean R fds vs ∧ BitsRead data (slotRuns (fieldItems fields vs) pos))
      fun jss => SlotsShow R fds jss vs := by
  have hcnt := hb.length_eq
  obtain ⟨bitfield, body, rfl, hlen, hflg, hbody⟩ := hb
  rw [denotes_eq_map, length_map] at hcnt hlen hflg
  have hsl := decodeSlots_meets pos 0 h hat.right hbody
  have hits : (fieldItems fields vs).length = fields.length := by
    rw [fieldItems, length_zipWith, hcnt, Nat.min_self]
  have hnulls : (fieldItems fields vs).map Option.isNone = vs.map Value.isNull := by
    have hout : (fieldItems fields vs).map Option.isNone =
        ((fieldItems fields vs).map Item.out).map Option.isNone := by
      rw [List.map_map]
      exact map_congr_left fun item _ => by cases item <;> rfl
    rw [hout, fieldItems_out]
    exact slotOuts_isNone hcnt.symm
  have hhigh := highRead_iff (vs.map Value.isNull) hat.left (by rw [length_map, hcnt, hlen])
    (by rw [length_map, hcnt, hflg])
  have hgood : (SlotsClean R fds vs ∧ BitsRead data (slotRuns (fieldItems fields vs) pos)) ↔
      (∀ k flag, (vs.map Value.isNull)[k]? = some flag → isNullBit data pos (0 + k) = flag) ∧
        SlotsClean R fds vs ∧
        BitsRead data (itemRuns (fieldItems fields vs) (pos + bitfield.length)) := by
    rw [slotRuns, bitsRead_cons, hnulls, hits, hhigh, hlen]
    simp only [Nat.zero_add]
    tauto
  have hrun : decodeRun data (fds.map (decodeValue R data)) pos =
      decodeSlots data pos (fds.map (decodeValue R data)) 0 (pos + bitfield.length) := by
    rw [decodeRun, length_map, ← h.length_eq, hlen]
  rw [length_append]
  constructor
  · intro jss pos' hx hjss
    rw [hrun] at hx
    exact hgood.mpr (hsl.sound jss pos' hx hjss)
  · intro hg
    obtain ⟨jss, hx, hjss⟩ := hsl.complete (hgood.mp hg)
    exact ⟨jss, by rw [hrun, hx, Nat.add_assoc], hjss⟩

/-! ## Records, arrays and maps -/

/-- What the decoder assigns field by field is a record of the values, but for `__proto__`. -/
theorem slots_of_lookup {props : List (String × Js)} : ∀ {fds : List FieldDescriptor}
    {vals : List Js} (vs : List Value), vals.length = fds.length →
    (∀ p ∈ (fds.map name).zip vals,
      props.lookup p.1 = if p.1 = "__proto__" then none else some p.2) →
    (Forall₂ (fun p v => ∃ j, View.made.get props p.1 = some j ∧ SlotShows .made p.2 j v)
        (showsFields R .made fds) vs ↔
      "__proto__" ∉ fds.map name ∧ SlotsShow R fds vals vs)
  | [], [], vs, _, _ => by
    rw [showsFields, forall₂_nil_left_iff]
    exact ⟨fun h => ⟨by simp, rfl, h⟩, fun h => h.2.2⟩
  | fd :: fds, val :: vals, vs, hlen, hlk => by
    have hfst : View.made.get props fd.name =
        if fd.name = "__proto__" then none else some val :=
      hlk (fd.name, val) mem_cons_self
    have ih := fun ws => slots_of_lookup ws (Nat.succ.inj hlen)
      fun p hp => hlk p (mem_cons_of_mem _ hp)
    rw [showsFields]
    constructor
    · rintro (_ | ⟨⟨j, hget, hj⟩, hrest⟩)
      obtain ⟨hprt, hsl⟩ := (ih _).mp hrest
      have hname : fd.name ≠ "__proto__" := by
        intro heq
        rw [hfst, if_pos heq] at hget
        cases hget
      rw [hfst, if_neg hname] at hget
      cases hget
      refine ⟨?_, val, vals, _, _, rfl, rfl, hj, hsl⟩
      rw [map_cons, mem_cons, not_or]
      exact ⟨Ne.symm hname, hprt⟩
    · rintro ⟨hprt, _, _, v, _, heq, rfl, hj, hsl⟩
      cases heq
      rw [map_cons, mem_cons, not_or] at hprt
      refine .cons ⟨val, ?_, hj⟩ ((ih _).mpr ⟨hprt.2, hsl⟩)
      rw [hfst, if_neg (Ne.symm hprt.1)]

/-- The record the decoder makes of a run's results. -/
theorem showsRow_made (hlen : vals.length = fds.length) :
    ShowsRow R .made fds (assignAll [] ((fds.map name).zip vals)) vs ↔
      ((fds.map name).Nodup ∧ "__proto__" ∉ fds.map name) ∧
        SlotsShow R fds vals vs := by
  rw [ShowsRow, and_assoc]
  refine and_congr_right fun hnd => slots_of_lookup vs hlen fun p hp => ?_
  have hfst : ((fds.map name).zip vals).map Prod.fst =
      fds.map name := by
    rw [map_fst_zip]
    rw [length_map, hlen]
  exact lookup_assignAll (by rwa [hfst]) hp

theorem decodeFields_snd (fds : List FieldDescriptor) :
    (decodeFields R data fds).map Prod.snd = fds.map (decodeValue R data) := by
  rw [decodeFields_eq_map, List.map_map]
  rfl

theorem decodeFields_fst (fds : List FieldDescriptor) :
    (decodeFields R data fds).map Prod.fst = fds.map name := by
  rw [decodeFields_eq_map, List.map_map]
  rfl

/-- The slots of an array, all of one descriptor. -/
theorem slotsShow_replicate (fd : FieldDescriptor) : ∀ {n : Nat} (jss : List Js) {vs : List Value},
    vs.length = n → (SlotsShow R (replicate n fd) jss vs ↔
      Forall₂ (SlotShows .made (Shows R .made fd)) jss vs)
  | 0, jss, vs, hlen => by
    obtain rfl := length_eq_zero_iff.mp hlen
    rw [forall₂_nil_right_iff]
    exact ⟨fun h => h.1, fun h => ⟨h, rfl⟩⟩
  | n + 1, jss, [], hlen => by cases hlen
  | n + 1, jss, v :: vs, hlen => by
    have ih := fun ws => slotsShow_replicate fd ws (Nat.succ.inj hlen)
    rw [replicate_succ]
    constructor
    · rintro ⟨_, _, _, _, rfl, heq, hjs, hjss⟩
      cases heq
      exact .cons hjs ((ih _).mp hjss)
    · rintro (_ | ⟨hjs, hjss⟩)
      exact ⟨_, _, v, vs, rfl, rfl, hjs, (ih _).mpr hjss⟩

theorem slotsClean_replicate :
    SlotsClean R (replicate vs.length fd) vs ↔ ∀ v ∈ vs, v.isNull = false → Clean R fd v := by
  induction vs with
  | nil =>
    refine iff_of_true .nil ?_
    intro v hv
    cases hv
  | cons v vs ih =>
    rw [length_cons, replicate_succ, slotsClean_cons, ih, forall_mem_cons]

theorem arrayRun_meets {n : Nat} (h : ReadsAs R data t fd)
    (hat : At data pos b) (hb : DenotesSlots (replicate n (Denotes t)) b vs) :
    Meets (decodeRun data (replicate n (decodeValue R data fd))) pos b.length
      ((∀ v ∈ vs, v.isNull = false → Clean R fd v) ∧
        BitsRead data (slotRuns (vs.map (slotItem (wire t) (runs t))) pos))
      fun jss => Forall₂ (SlotShows .made (Shows R .made fd)) jss vs := by
  have hlen : vs.length = n := by rw [hb.length_eq, length_replicate]
  subst hlen
  rw [← denotes_replicate "" t true] at hb
  have hfs : Forall₂ (fun f fd => ReadsAs R data f.type fd)
      (replicate vs.length (⟨"", t, true⟩ : Field)) (replicate vs.length fd) :=
    forall₂_replicate (R := fun f fd => ReadsAs R data (FieldOf.type f) fd) h vs.length
  have hrun := decodeRun_meets hfs hat hb
  rw [map_replicate, fieldItems_replicate, slotsClean_replicate] at hrun
  exact hrun.of_iff fun jss => slotsShow_replicate fd jss rfl

theorem decodeKeys_length : ∀ {xs : List (ReadCursor Js)} {pos pos' : Nat} {keys : List Js},
    decodeKeys xs pos = .ok (keys, pos') → keys.length = xs.length
  | [], _, _, _, h => by
    obtain ⟨rfl, -⟩ := pure_eq_ok.mp h
    rfl
  | x :: xs, pos, pos', keys, h => by
    obtain ⟨_, _, -, h⟩ := bind_eq_ok.mp h
    obtain ⟨_, _, hkeys, hret⟩ := bind_eq_ok.mp h
    obtain ⟨rfl, -⟩ := pure_eq_ok.mp hret
    rw [length_cons, length_cons, decodeKeys_length hkeys]

theorem keys_meets (h : ReadsAs R data t fd) : ∀ {ks : List Value} {pos : Nat} {b : Bytes},
    At data pos b → (∀ k ∈ ks, k.isNull = false) →
    Payloads (replicate ks.length (Denotes t)) b ks →
    Meets (decodeKeys (replicate ks.length (decodeValue R data fd))) pos b.length
      ((∀ k ∈ ks, Clean R fd k) ∧
        BitsRead data (itemRuns (ks.map (slotItem (wire t) (runs t))) pos))
      fun keys => Forall₂ (Shows R .made fd) keys ks
  | [], pos, b, hat, hn, hb => by
    obtain ⟨rfl, -⟩ := hb
    refine meets_pure ⟨fun _ => ⟨?_, bitsRead_nil⟩, fun _ => .nil⟩
    intro k hk
    cases hk
  | k :: ks, pos, _, hat, hn, hb => by
    obtain ⟨b, body, _, _, rfl, heq, hb, hbody⟩ := hb
    cases heq
    have hk := hn k mem_cons_self
    rw [hk, if_neg (by simp)] at hb
    have hfst := h pos b k hat.left hb
    have hrest := keys_meets h hat.right (fun k' hk' => hn k' (mem_cons_of_mem k hk')) hbody
    rw [length_append]
    refine ((hfst.cons hrest).congr ?_).of_iff fun keys => ?_
    · rw [forall_mem_cons, map_cons, slotItem, if_neg (by simp [hk]), itemRuns,
        bitsRead_append, hb.length_eq]
      tauto
    · constructor
      · rintro ⟨_, keys, rfl, hkey, hkeys⟩
        exact .cons hkey hkeys
      · rintro (_ | ⟨hkey, hkeys⟩)
        exact ⟨_, _, rfl, hkey, hkeys⟩

/-- Keys that show distinct values are distinct keys, and the other way round. -/
theorem keysDistinct_iff {keys : List Js} {ks : List Value}
    (h : Forall₂ (Shows R .made fd) keys ks) (hlen : keys.length = vals.length) :
    DistinctKeys R (keys.zip vals) ↔ KeysDistinct R (Shows R .made fd) ks := by
  have hkeys : DistinctKeys R (keys.zip vals) ↔ keys.Pairwise fun a b => sameKey R a b = false := by
    have hfst : (keys.zip vals).map Prod.fst = keys := map_fst_zip (by omega)
    conv_rhs => rw [← hfst, pairwise_map]
    rfl
  rw [hkeys]
  clear hkeys hlen
  induction h with
  | nil => exact iff_of_true .nil .nil
  | @cons key k keys ks hkey hkeys ih =>
    unfold KeysDistinct
    rw [pairwise_cons, pairwise_cons]
    refine and_congr ⟨fun hall k' hk' js js' hjs hjs' => ?_, fun hall key' hkey' => ?_⟩ ih
    · obtain ⟨i, hi⟩ := mem_iff_getElem?.mp hk'
      obtain ⟨key', hkey', hshow⟩ := forall₂_getElem?_right hkeys hi
      rw [← sameKey_keyShape, hjs.keyShape_eq hkey, hjs'.keyShape_eq hshow, sameKey_keyShape]
      exact hall key' (mem_of_getElem? hkey')
    · obtain ⟨i, hi⟩ := mem_iff_getElem?.mp hkey'
      obtain ⟨k', hk', hshow⟩ := forall₂_getElem?_left hkeys hi
      exact hall k' (mem_of_getElem? hk') key key' hkey hshow

/-- The map the decoder makes of keys and values shows theirs only if it has kept them all. -/
theorem mapSetAll_shows (shows slotShows : Js → Value → Prop) {keys : List Js} {ks : List Value}
    (vs : List Value) (hk : keys.length = ks.length) (hv : vals.length = ks.length) :
    (DistinctKeys R (mapSetAll R [] (keys.zip vals)) ∧
        Forall₂ shows ((mapSetAll R [] (keys.zip vals)).map Prod.fst) ks ∧
        Forall₂ slotShows ((mapSetAll R [] (keys.zip vals)).map Prod.snd) vs) ↔
      DistinctKeys R (keys.zip vals) ∧ Forall₂ shows keys ks ∧
        Forall₂ slotShows vals vs := by
  have hfst : (keys.zip vals).map Prod.fst = keys := map_fst_zip (by omega)
  have hsnd : (keys.zip vals).map Prod.snd = vals := map_snd_zip (by omega)
  have hset : DistinctKeys R (keys.zip vals) → mapSetAll R [] (keys.zip vals) = keys.zip vals :=
    fun hd => mapSetAll_eq R (keys.zip vals) [] hd
  constructor
  · rintro ⟨-, hkeys, hvals⟩
    have hlen := hkeys.length_eq
    rw [length_map] at hlen
    have hdis : DistinctKeys R (keys.zip vals) := by
      refine distinctKeys_of_length R (keys.zip vals) [] .nil ?_
      rw [hlen, length_zip, length_nil]
      omega
    rw [hset hdis, hfst] at hkeys
    rw [hset hdis, hsnd] at hvals
    exact ⟨hdis, hkeys, hvals⟩
  · rintro ⟨hdis, hkeys, hvals⟩
    rw [hset hdis, hfst, hsnd]
    exact ⟨hdis, hkeys, hvals⟩

/-! ## Scalars -/

section Scalars

variable {bs : Bytes} {w : Nat}

theorem readSigned_at (hw : bs.length = w) (h : At data pos bs) :
    readSigned data w pos = .ok (.number (signed bs), pos + w) := bind_of_ok (readWord_at hw h)

theorem readUnsigned_at (hw : bs.length = w) (h : At data pos bs) :
    readUnsigned data w pos = .ok (.number (ofLe bs), pos + w) := bind_of_ok (readWord_at hw h)

theorem readI64_at (hw : bs.length = 8) (h : At data pos bs) :
    readI64 data pos = .ok (.bigint (signed bs), pos + 8) := bind_of_ok (readWord_at hw h)

theorem readU64_at (hw : bs.length = 8) (h : At data pos bs) :
    readU64 data pos = .ok (.bigint (ofLe bs), pos + 8) := bind_of_ok (readWord_at hw h)

theorem readFloat_at (hw : bs.length = w) (h : At data pos bs) :
    readFloat data w pos = .ok (.float bs, pos + w) := bind_of_ok (readWord_at hw h)

theorem readDayTime_at (hw : bs.length = 8) (h : At data pos bs) :
    readScalar R data .intervalDayTime pos =
      .ok (.object [("days", .number (signed (bs.take 4))),
        ("milliseconds", .number (signed (bs.drop 4)))], pos + 8) := by
  rw [← take_append_drop 4 bs] at h
  have htake : (bs.take 4).length = 4 := by simp; omega
  have hms := readSigned_at (by simp; omega : (bs.drop 4).length = 4) h.right
  rw [htake] at hms
  exact (bind_of_ok (readSigned_at htake h.left)).trans (bind_of_ok hms)

theorem readMonthDayNano_at (hw : bs.length = 16) (h : At data pos bs) :
    readScalar R data .intervalMonthDayNano pos =
      .ok (.object [("months", .number (signed (bs.take 4))),
        ("days", .number (signed ((bs.drop 4).take 4))),
        ("nanoseconds", .bigint (signed (bs.drop 8)))], pos + 16) := by
  have hcut : bs.take 4 ++ ((bs.drop 4).take 4 ++ bs.drop 8) = bs := by
    rw [← drop_drop (i := 4) (j := 4), take_append_drop, take_append_drop]
  rw [← hcut] at h
  have htake : (bs.take 4).length = 4 := by simp; omega
  have hmid : ((bs.drop 4).take 4).length = 4 := by simp; omega
  have hdays := readSigned_at hmid h.right.left
  have hnanos := readI64_at (by simp; omega : (bs.drop 8).length = 8) h.right.right
  rw [htake] at hdays
  rw [htake, hmid] at hnanos
  exact (bind_of_ok (readSigned_at htake h.left)).trans
    ((bind_of_ok hdays).trans (bind_of_ok hnanos))

/-- A fixed-width value is read from its bytes. -/
theorem readScalar_fixed {t : FixedType} {wireType : WireTypeId} {fv : FixedValue}
    (ht : wireTypeOf t = some wireType) (hty : fv.type = t) (h : At data pos fv.repr) :
    ∃ js, readScalar R data wireType pos = .ok (js, pos + fv.repr.length) ∧
      ShowsScalar wireType js fv.repr := by
  have hsize := fv.size_eq
  rw [hty] at hsize
  rw [hsize]
  cases t with
  | int8 | int16 | int32 | date32 | time32 | intervalMonths =>
    cases ht
    exact ⟨_, readSigned_at hsize h, rfl⟩
  | int64 | date64 | time64 =>
    cases ht
    exact ⟨_, readI64_at hsize h, rfl⟩
  | timestamp unit _ =>
    cases unit <;> cases ht
    exact ⟨_, readI64_at hsize h, rfl⟩
  | duration unit =>
    cases unit <;> cases ht
    exact ⟨_, readI64_at hsize h, rfl⟩
  | uint8 =>
    cases ht
    obtain ⟨c, hc⟩ := length_eq_one_iff.mp hsize
    rw [hc] at h ⊢
    exact ⟨.number c.toNat, bind_of_ok (readU8_at h), rfl⟩
  | uint16 | halfFloat | uint32 =>
    cases ht
    exact ⟨_, readUnsigned_at hsize h, rfl⟩
  | uint64 =>
    cases ht
    exact ⟨_, readU64_at hsize h, rfl⟩
  | float | double =>
    cases ht
    exact ⟨_, readFloat_at hsize h, rfl⟩
  | decimal128 | decimal256 =>
    cases ht
    exact ⟨_, bind_of_ok (readBytes_at hsize h), rfl⟩
  | intervalDayTime =>
    cases ht
    exact ⟨_, readDayTime_at hsize h, _, rfl, rfl, rfl⟩
  | intervalMonthDayNano =>
    cases ht
    exact ⟨_, readMonthDayNano_at hsize h, _, rfl, rfl, rfl, rfl⟩
  | fixedSizeBinary w => cases ht

theorem isComposite_wireTypeOf {t : FixedType} {wireType : WireTypeId}
    (h : wireTypeOf t = some wireType) : isComposite wireType = false := by
  cases t with
  | timestamp unit _ => cases unit <;> cases h; rfl
  | duration unit => cases unit <;> cases h; rfl
  | fixedSizeBinary w => cases h
  | _ => cases h; rfl

/-- A length and as many bytes. -/
theorem readSized_at {α : Type} {g : Bytes → α} {d : Bytes} (hd : d.length < 2 ^ 32)
    (h : At data pos (leBytes 4 d.length ++ d)) :
    (readU32 data >>= fun len => readBytes data len >>= fun bytes =>
      (pure (g bytes) : ReadCursor α))
      pos = .ok (g d, pos + (leBytes 4 d.length ++ d).length) := by
  have hby := readBytes_at rfl h.right
  rw [leBytes_length] at hby
  rw [bind_of_ok (readU32_at hd h.left), bind_of_ok hby, length_append, leBytes_length,
    Nat.add_assoc]
  rfl

theorem decodeText_eq_iff {d : Bytes} : (R.decodeText d).utf8 = d ↔
    Utf8.valid d = true ∧ ¬ bom <+: d := by
  constructor
  · intro heq
    have hval : Utf8.valid d = true := heq ▸ (R.decodeText d).valid
    refine ⟨hval, fun hbom => ?_⟩
    have htext := R.decodeText_valid d hval
    have hlen := hbom.length_le
    rw [heq, if_pos hbom] at htext
    have hsht := congrArg List.length htext
    rw [length_drop] at hsht
    have hthree : bom.length = 3 := rfl
    omega
  · rintro ⟨hval, hbom⟩
    rw [R.decodeText_valid d hval, if_neg hbom]

end Scalars

/-- A value that leaves the decoder no choice. -/
theorem meets_of_ok {α : Type} {x : ReadCursor α} {len : Nat} {a : α} {good : Prop}
    {P : α → Prop} (hx : x pos = .ok (a, pos + len)) (h : P a ↔ good) : Meets x pos len good P where
  sound b pos' hb hP := by
    rw [hx] at hb
    cases hb
    exact h.mp hP
  complete hgood := ⟨a, hx, h.mpr hgood⟩

theorem signed_byte {c : UInt8} (h : c.toNat < 128) : signed [c] = c.toNat := by
  have hle : ofLe [c] = c.toNat := by simp [ofLe]
  rw [signed, hle, if_pos (by simpa using h)]

/-! ## Values -/

theorem array_meets {x : ReadCursor (List Js)} {len : Nat} {good : Prop}
    {P : List Js → List Value → Prop} (h : Meets x pos len good fun jss => P jss vs) :
    Meets (x >>= fun vals => pure (Js.array vals)) pos len good fun js => ∃ items vs',
      js = .array items ∧ Value.list vs = .list vs' ∧ P items vs' :=
  (h.map (c := True) fun vals _ _ => by simp).congr (and_iff_right trivial)

/-- **What `decodeValue` makes of the bytes of a value.** -/
theorem decodeValue_meets (hd : Describes t fd) : ReadsAs R data t fd := by
  refine hd.induction ?bool ?fixed ?var ?struct ?list ?fixedSizeList ?map ?union <;>
    (intros; intro pos b v hat hb)
  case bool =>
    cases v <;> simp only [Denotes] at hb
    obtain ⟨c, rfl, rfl⟩ := hb
    exact meets_of_ok (bind_of_ok (readU8_at hat))
      (iff_of_true ⟨_, rfl, rfl⟩ ⟨trivial, bitsRead_nil⟩)
  case fixed fd ht =>
    cases v <;> simp only [Denotes] at hb
    rename_i fv
    obtain ⟨hty, rfl⟩ := hb
    have hcom : isComposite fd.wireType = false := isComposite_wireTypeOf ht
    obtain ⟨js, hread, hshow⟩ := readScalar_fixed (R := R) ht hty hat
    rw [← decodeValue_scalar hcom] at hread
    obtain ⟨_, _, _, _, _, _, _, _⟩ := fd
    exact meets_of_ok hread (iff_of_true ((shows_fixed ht).mpr ⟨fv, rfl, hshow⟩)
      ⟨trivial, bitsRead_nil⟩)
  case var =>
    cases v <;> simp only [Denotes] at hb
    rename_i t' d
    obtain ⟨rfl, hlt, rfl⟩ := hb
    cases t' with
    | string | largeString | stringView =>
      refine meets_of_ok (readSized_at hlt hat) ⟨?_, ?_⟩
      · rintro ⟨s, t, hs, hv⟩
        cases hs
        injection hv with _ heq
        exact ⟨fun _ => decodeText_eq_iff.mp heq.symm, bitsRead_nil⟩
      · rintro ⟨hcln, -⟩
        exact ⟨_, _, rfl, by rw [decodeText_eq_iff.mpr (hcln rfl)]⟩
    | binary | largeBinary | binaryView =>
      refine meets_of_ok (readSized_at hlt hat) (iff_of_true ⟨d, _, rfl, rfl⟩ ⟨?_, bitsRead_nil⟩)
      exact fun htext => absurd htext (by decide)
  case struct fds _ ih =>
    cases v <;> simp only [Denotes] at hb
    rename_i vs
    have hrun := decodeRun_meets ih hat hb
    rw [← decodeFields_snd] at hrun
    refine (hrun.map (c := (fds.map name).Nodup ∧
      "__proto__" ∉ fds.map name) fun vals mid hvals => ?_).congr ?_
    · have hlen := decodeRun_length hvals
      rw [length_map, decodeFields_eq_map, length_map] at hlen
      rw [decodeFields_fst, ← showsRow_made hlen]
      constructor
      · rintro ⟨_, vs', hprp, hvs, hshow⟩
        cases hprp
        cases hvs
        exact hshow
      · exact fun hshow => ⟨_, vs, rfl, rfl, hshow⟩
    · rw [runs_struct, ← and_assoc, and_assoc (b := _ ∉ _)]
      rfl
  case list kind item e ih =>
    cases v <;> simp only [Denotes] at hb
    rename_i vs
    obtain ⟨hlt, body, rfl, hbody⟩ := hb
    have hrun := arrayRun_meets ih hat.right hbody
    rw [leBytes_length] at hrun
    rw [length_append, leBytes_length]
    have hlist := Meets.after (f := fun count => decodeRun data (replicate count
      (decodeValue R data e)) >>= fun vals => pure (Js.array vals)) (readU32_at hlt hat.left)
      (array_meets hrun)
    cases kind <;> exact hlist
  case fixedSizeList ih =>
    cases v <;> simp only [Denotes] at hb
    rename_i vs
    have hrun := arrayRun_meets ih hat hb
    exact array_meets hrun
  case map key item k e ihk ihv =>
    cases v <;> simp only [Denotes] at hb
    rename_i ks vs
    obtain ⟨hlen, hlt, hn, keys, body, rfl, hkeys, hbody⟩ := hb
    have hkme := keys_meets ihk hat.right.left hn hkeys
    have hvme := arrayRun_meets ihv hat.right.right hbody
    have hkby := (hkeys.recoded_all (denotes_recodes key.type) hn).length_eq
    simp only [length_append, leBytes_length] at hkme hvme ⊢
    refine Meets.congr (Meets.after (readU32_at hlt hat.left) (hkme.bind
      (c := KeysDistinct R (Shows R .made k) ks ∧ (∀ v ∈ vs, v.isNull = false → Clean R e v) ∧
        BitsRead data (slotRuns (vs.map (slotItem (wire item.type) (runs item.type)))
          (pos + 4 + keys.length))) ?_ ?_)) ?_
    · -- a map that shows the value has kept every key
      intro jkeys mid js _ hjkeys hret hshow
      obtain ⟨vals, _, hvals, hpure⟩ := bind_eq_ok.mp hret
      obtain ⟨rfl, -⟩ := pure_eq_ok.mp hpure
      obtain ⟨entries, ks', vs', hents, hv, hshow⟩ := hshow
      cases hents
      cases hv
      have hklen := decodeKeys_length hjkeys
      have hvlen := decodeRun_length hvals
      rw [length_replicate] at hklen hvlen
      exact ((mapSetAll_shows _ _ vs hklen hvlen).mp hshow).2.1
    · intro jkeys hjkeys hshows
      refine hvme.map fun vals mid hvals => ?_
      have hklen := decodeKeys_length hjkeys
      have hvlen := decodeRun_length hvals
      rw [length_replicate] at hklen hvlen
      have hiff := mapSetAll_shows (R := R) (Shows R .made k)
        (SlotShows .made (Shows R .made e)) vs hklen hvlen
      rw [keysDistinct_iff hshows (by omega)] at hiff
      constructor
      · rintro ⟨entries, ks', vs', hents, hv, hshow⟩
        cases hents
        cases hv
        obtain ⟨hdis, -, hvs⟩ := hiff.mp hshow
        exact ⟨hdis, hvs⟩
      · rintro ⟨hdis, hvs⟩
        exact ⟨_, ks, vs, rfl, rfl, hiff.mpr ⟨hdis, hshows, hvs⟩⟩
    · rw [runs, bitsRead_append, ← hkby]
      show _ ↔ (KeysDistinct R (Shows R .made k) ks ∧ (∀ k' ∈ ks, Clean R k k') ∧
        ∀ v ∈ vs, v.isNull = false → Clean R e v) ∧ _
      tauto
  case union mode fields fds hcnt ih =>
    cases v <;> simp only [Denotes] at hb
    rename_i code u
    obtain ⟨k, p, b', hk, hp, rfl, hb'⟩ := hb
    have hcode : code.toNat < fields.length ∧ k = code.toNat := by
      rw [childId_range hcnt] at hk
      split at hk
      · exact ⟨‹_›, (Option.some.inj hk).symm⟩
      · cases hk
    obtain ⟨hcode, rfl⟩ := hcode
    rw [denotes_eq_map, getElem?_map, Option.map_eq_some_iff] at hp
    obtain ⟨f, hf, rfl⟩ := hp
    obtain ⟨fd, hfd, hch⟩ := forall₂_getElem?_left ih hf
    have hat : At data pos ([code] ++ b') := hat
    have hch := hch _ _ u hat.right hb'
    have hrdr : (decodeFields R data fds)[code.toNat]? = some (fd.name, decodeValue R data fd) := by
      rw [decodeFields_eq_map, getElem?_map, hfd]
      rfl
    have hsig := signed_byte (c := code) (by omega)
    have hbra : unionChild (decodeFields R data fds) (signed [code]) = decodeValue R data fd := by
      rw [hsig]
      exact unionChild_of_code (Int.natCast_nonneg _) hrdr
    rw [← hbra] at hch
    have huni : Meets (decodeUnion data (decodeFields R data fds)) pos (1 + b'.length) _ _ :=
      Meets.after (readWord_at rfl hat.left) hch
    have hshows : (showsFields R .made fds)[code.toNat]? = some (fd.name, Shows R .made fd) := by
      rw [showsFields_eq_map, getElem?_map, hfd]
      rfl
    have hcle : (cleanFields R fds)[code.toNat]? = some (Clean R fd) := by
      rw [cleanFields_eq_map, getElem?_map, hfd]
      rfl
    rw [length_cons, Nat.add_comm]
    have hres := (huni.congr (c := (∀ c, (cleanFields R fds)[code.toNat]? = some c → c u) ∧
        BitsRead data (runs f.type u (pos + 1))) ?_).of_iff (Q := fun js =>
          ∃ code' u' p, Value.union code u = .union code' u' ∧
            (showsFields R .made fds)[code'.toNat]? = some p ∧ p.2 js u') fun js => ?_
    · rw [runs_union hk hf]
      cases mode <;> exact hres
    · rw [hcle]
      simp
    · constructor
      · exact fun hjs => ⟨code, u, _, rfl, hshows, hjs⟩
      · rintro ⟨code', u', p, hv, hp, hjs⟩
        cases hv
        rw [hshows] at hp
        cases hp
        exact hjs

/-- **What `decodePositional` makes of the bytes of a row.** -/
theorem decodePositional_shows_iff {schema : Schema} {sd : SchemaDescriptor} {row : Row}
    (hd : DescribesSchema schema sd) (hrow : DenotesRow schema data row) :
    (∃ props, decodePositional R sd data = .ok props ∧ ShowsRow R .made sd props row) ↔
      CleanRow R sd row ∧ BitsRead data (rowRuns schema row) := by
  have hat : At data 0 data := ⟨[], [], by rw [append_nil, nil_append], rfl⟩
  have hfs : Forall₂ (fun f fd => ReadsAs R data f.type fd) schema sd :=
    (describesAll_iff.mp hd.2).imp fun _ _ hfd => decodeValue_meets hfd
  have hrun := decodeRun_meets hfs hat hrow
  rw [← decodeFields_snd] at hrun
  have hlen : ∀ vals pos, decodeRun data ((decodeFields R data sd).map Prod.snd) 0 =
      .ok (vals, pos) →
      vals.length = sd.length := by
    intro vals pos hvals
    have hcnt := decodeRun_length hvals
    rwa [length_map, decodeFields_eq_map, length_map] at hcnt
  constructor
  · rintro ⟨props, hprp, hshow⟩
    unfold decodePositional at hprp
    split at hprp
    · next vals pos hvals =>
      cases hprp
      rw [decodeFields_fst, showsRow_made (hlen vals pos hvals)] at hshow
      obtain ⟨⟨hnd, hprt⟩, hsl⟩ := hshow
      obtain ⟨hcln, hbits⟩ := hrun.sound vals pos hvals hsl
      exact ⟨⟨hnd, hprt, hcln⟩, hbits⟩
    · cases hprp
  · rintro ⟨⟨hnd, hprt, hcln⟩, hbits⟩
    obtain ⟨vals, hvals, hsl⟩ := hrun.complete ⟨hcln, hbits⟩
    refine ⟨_, by rw [decodePositional, hvals], ?_⟩
    rw [decodeFields_fst, showsRow_made (hlen vals _ hvals)]
    exact ⟨⟨hnd, hprt⟩, hsl⟩

end

end Fletcher.Ts
