import Fletcher.Bridge.BatchDecoder
import Fletcher.Bridge.Grammar

/-!
# What a walk does

The walk of the batch decoder reads bytes and calls a sink as it goes. `replay` makes the
calls a value stands for, without any bytes. Held together, `walkValue` reads exactly what
the grammar's `parse` reads and leaves the sink where `replay` of the parsed value leaves it:
`tracks_walkValue`, for any sink whose own reading of a scalar is the grammar's.

It is enough that this is so for the scalars a value of the type can hold (`Holds`). The
skip pass does not read a `fixed_size_binary` of width zero as the grammar does, so for it
the difference matters.
-/

namespace Fletcher.Bridge.Batch

open Lib Arrow Reader List

variable {count : Nat} {vs : List Value}

/-! ## Replaying a value -/

section Replay

variable {σ : Type} (S : Sink σ) (leaf : DataType → Value → σ → Except BatchError σ)

def replaySlot (t : DataType) (play : Value → σ → Except BatchError σ) (v : Value) (s : σ) :
    Except BatchError σ :=
  if v.isNull then S.null t s else play v s

/-- The elements of a list that has some. -/
def replayRun (elem : DataType) (play : Value → σ → Except BatchError σ) (vs : List Value)
    (s : σ) : Except BatchError σ :=
  if vs.all Value.isNull then S.nulls elem vs.length s
  else vs.foldlM (fun s v => replaySlot S elem play v s) s

def replayElements (list elem : DataType) (play : Value → σ → Except BatchError σ)
    (vs : List Value) (s : σ) : Except BatchError σ := do
  let s ← S.listBegin list vs.length s
  if vs.length = 0 then .ok s
  else do
    let c ← replayRun S elem play vs (S.child 0 s)
    .ok (S.setChild 0 c s)

def replayFields : Nat → List (Value → σ → Except BatchError σ) → List Value → σ →
    Except BatchError σ
  | k, play :: plays, v :: vs, s => do
    let c ← play v (S.child k s)
    replayFields (k + 1) plays vs (S.setChild k c s)
  | _, _, _, s => .ok s

def replayEntries (item : DataType) (playKey playItem : Value → σ → Except BatchError σ)
    (ks vs : List Value) (s : σ) : Except BatchError σ := do
  let keys ← ks.foldlM (fun s v => playKey v s) (S.child 0 s)
  let items ← vs.foldlM (fun s v => replaySlot S item playItem v s)
    (S.child 1 (S.setChild 0 keys s))
  .ok (S.setChild 1 items (S.setChild 0 keys s))

def replayChild (plays : List (Value → σ → Except BatchError σ)) (k : Nat) (v : Value) (s : σ) :
    Except BatchError σ :=
  match plays[k]? with
  | some play => do
    let c ← play v (S.child k s)
    .ok (S.setChild k c s)
  | none => .ok s

mutual

/-- The calls of the walk of a value that is not null. -/
def replay : DataType → Value → σ → Except BatchError σ
  | .struct fields, .struct vs, s => do
    let s ← S.structBegin s
    replayFields S 0 (replayers fields) vs s
  | .list kind ⟨n, t, b⟩, .list vs, s =>
    replayElements S (.list kind ⟨n, t, b⟩) t (replay t) vs s
  | .fixedSizeList ⟨n, t, b⟩ size, .list vs, s =>
    replayElements S (.fixedSizeList ⟨n, t, b⟩ size) t (replay t) vs s
  | .map ⟨_, kt, _⟩ ⟨_, vt, _⟩ _, .map ks vs, s => do
    let s ← S.mapBegin ks.length s
    replayEntries S vt (replay kt) (replay vt) ks vs s
  | .union mode fields codes, .union code v, s =>
    match childId codes code with
    | some k => do
      let s ← S.unionBegin mode fields code k s
      replayChild S (replayers fields) k v s
    | none => .ok s
  | t, v, s => leaf t v s

/-- The calls for a slot of each field's type. -/
def replayers : List Field → List (Value → σ → Except BatchError σ)
  | [] => []
  | ⟨_, t, _⟩ :: fs => replaySlot S t (replay t) :: replayers fs

end

theorem replayers_eq_map : ∀ fields, replayers S leaf fields =
    fields.map (fun f => replaySlot S f.type (replay S leaf f.type))
  | [] => rfl
  | ⟨_, t, _⟩ :: fs => by rw [replayers, replayers_eq_map fs]; rfl

/-- The calls for a row. -/
def replayRow (fields : List Field) (row : Row) (s : σ) : Except BatchError σ :=
  replayFields S 0 (replayers S leaf fields) row s

end Replay

/-- The types without children. -/
def isLeaf : DataType → Bool
  | .bool | .fixed _ | .var _ => true
  | _ => false

theorem replay_leaf {σ : Type} {S : Sink σ} {leaf : DataType → Value → σ → Except BatchError σ}
    {t : DataType} (h : isLeaf t = true) : replay S leaf t = leaf t := by
  funext v s
  cases t with
  | bool | fixed _ | var _ => rfl
  | _ => cases h

theorem isLeaf_of_fixedWidth {t : DataType} (h : 0 < fixedWidth t) : isLeaf t = true := by
  cases t with
  | bool | fixed _ => rfl
  | _ => cases h

/-! ## What a value can hold -/

mutual

/-- The type has values. -/
def inhabited : DataType → Bool
  | .union _ fields codes => codes.any fun code =>
    match childId codes code with
    | some k => (inhabiteds fields).getD k false
    | none => false
  | .dictionary _ _ _ | .unsupported _ => false
  | _ => true

def inhabiteds : List Field → List Bool
  | [] => []
  | ⟨_, t, _⟩ :: fs => inhabited t :: inhabiteds fs

end

theorem inhabiteds_eq_map : ∀ fields, inhabiteds fields = fields.map (fun f => inhabited f.type)
  | [] => rfl
  | ⟨_, t, _⟩ :: fs => by rw [inhabiteds, inhabiteds_eq_map fs]; rfl

/-- Some value of the type that is not null holds a value, not null, of a type in `P`. -/
inductive Holds (P : DataType → Prop) : DataType → Prop
  | here {t : DataType} (leaf : isLeaf t = true) (p : P t) : Holds P t
  | field {fields : List Field} {f : Field} (mem : f ∈ fields) (h : Holds P f.type) :
    Holds P (.struct fields)
  | element {kind : ListKind} {item : Field} (h : Holds P item.type) : Holds P (.list kind item)
  | fixedElement {item : Field} {size : Nat} (pos : 0 < size) (h : Holds P item.type) :
    Holds P (.fixedSizeList item size)
  | key {key item : Field} {sorted : Bool} (h : Holds P key.type) : Holds P (.map key item sorted)
  | item {key item : Field} {sorted : Bool} (hkey : inhabited key.type = true)
    (h : Holds P item.type) : Holds P (.map key item sorted)
  | active {mode : UnionMode} {fields : List Field} {codes : List UInt8} {code : UInt8} {k : Nat}
    {f : Field} (hk : childId codes code = some k) (hf : fields[k]? = some f)
    (h : Holds P f.type) : Holds P (.union mode fields codes)

/-- What is parsed has a type with values. -/
theorem inhabited_of_hasType {t : DataType} (ht : t.supported = true) {v : Value}
    (h : HasType t v) : inhabited t = true := by
  induction t generalizing v with
  | union _ _ _ ih =>
    rw [DataType.supported, Bool.and_eq_true, fieldsSupported_iff] at ht
    cases v with
    | union code v =>
      obtain ⟨k, f, hk, hf, hv⟩ := hasType_union h
      have hmem := mem_of_getElem? hf
      have hch := ih f hmem (ht.2 f hmem) hv
      rw [inhabited, any_eq_true]
      refine ⟨code, ?_, ?_⟩
      · -- the code was found among the codes
        unfold childId at hk
        split at hk
        · cases hk
        · exact mem_of_childIdFrom hk
      · rw [hk]
        dsimp only
        rw [inhabiteds_eq_map, getD_eq_getElem?_getD, getElem?_map, hf]
        exact hch
    | _ => cases h
  | dictionary _ _ _ _ => cases ht
  | unsupported _ => cases ht
  | _ => rfl

/-! ## The bits of a bitfield -/

/-- The low `r` bits of a byte are all set. -/
theorem and_mask_iff (b : UInt8) (r : Nat) :
    b.toNat &&& (2 ^ r - 1) = 2 ^ r - 1 ↔ ∀ j < r, b.toNat.testBit j = true := by
  constructor
  · intro h j hj
    have hbit := congrArg (fun n => n.testBit j) h
    simpa [Nat.testBit_and, Nat.testBit_two_pow_sub_one, hj] using hbit
  · intro h
    refine Nat.eq_of_testBit_eq ?_
    intro j
    rw [Nat.testBit_and, Nat.testBit_two_pow_sub_one]
    by_cases hj : j < r
    · simp [h j hj]
    · simp [hj]

theorem eq_255_iff (b : UInt8) : b = 255 ↔ ∀ j < 8, b.toNat.testBit j = true := by
  rw [← and_mask_iff, Nat.and_two_pow_sub_one_eq_mod, Nat.mod_eq_of_lt b.toNat_lt]
  exact ⟨fun h => by rw [h]; rfl, fun h => UInt8.toNat_inj.mp h⟩

/-- `AllNull` asks for every flag. -/
theorem allNull_iff {bitfield : Bytes} (hlen : bitfield.length = bitfieldBytes count) :
    allNull bitfield count = true ↔ ∀ flag ∈ nullFlags bitfield count, flag = true := by
  have hflg : (∀ flag ∈ nullFlags bitfield count, flag = true) ↔
      ∀ i < count, readBit bitfield i = true := by
    simp [nullFlags]
  rw [hflg, allNull, Bool.and_eq_true, all_eq_true, Bool.or_eq_true, beq_iff_eq, beq_iff_eq,
    and_mask_iff]
  unfold bitfieldBytes at hlen
  constructor
  · intro h i _
    obtain ⟨hfull, hlast⟩ := h
    unfold readBit
    by_cases hbyte : i / 8 < count / 8
    · have hget : bitfield[i / 8]? = some (bitfield.getD (i / 8) 0) := by
        rw [getD_eq_getElem?_getD, getElem?_eq_getElem (by omega)]
        rfl
      have hmem : bitfield.getD (i / 8) 0 ∈ bitfield.take (count / 8) := by
        refine mem_of_getElem? (i := i / 8) ?_
        rw [getElem?_take_of_lt hbyte]
        exact hget
      have h255 := hfull _ hmem
      rw [beq_iff_eq] at h255
      exact (eq_255_iff _).mp h255 (i % 8) (Nat.mod_lt i (by omega))
    · have hi8 : i / 8 = count / 8 := by omega
      rw [hi8]
      rcases hlast with _ | hlast
      · omega
      · exact hlast (i % 8) (by omega)
  · intro h
    refine ⟨?_, ?_⟩
    · intro b hb
      rw [beq_iff_eq, eq_255_iff]
      intro j hj
      obtain ⟨k, hk⟩ := mem_iff_getElem?.mp hb
      have hkl : k < count / 8 := by
        have := (List.getElem?_eq_some_iff.mp hk).1
        rw [length_take] at this
        omega
      rw [getElem?_take_of_lt hkl] at hk
      have hbit := h (8 * k + j) (by omega)
      unfold readBit at hbit
      rw [show (8 * k + j) / 8 = k by omega, show (8 * k + j) % 8 = j by omega,
        getD_eq_getElem?_getD, hk] at hbit
      exact hbit
    · right
      intro j hj
      have hbit := h (8 * (count / 8) + j) (by omega)
      unfold readBit at hbit
      rw [show (8 * (count / 8) + j) / 8 = count / 8 by omega,
        show (8 * (count / 8) + j) % 8 = j by omega] at hbit
      exact hbit

/-! ## The walk reads the grammar -/

/-- What a sink owes: it reads a scalar as the grammar does, unless the type is in `P`; a run
is its values one by one; and what it fails with is in `C`. -/
structure Sink.Lawful {σ : Type} (S : Sink σ) (leaf : DataType → Value → σ → Except BatchError σ)
    (P : DataType → Prop) (C : BatchError → Prop) : Prop where
  scalar : ∀ t s, isLeaf t = true → ¬P t →
    Tracks (S.scalar t s) (parse t) (fun s' v => leaf t v s = .ok s') C
  run : ∀ t bytes count s s', 0 < fixedWidth t → bytes.length = count * fixedWidth t →
    S.run t bytes count s = .ok s' → (runValues t bytes count).foldlM (fun s v => leaf t v s) s =
      .ok s'
  run_error : ∀ t bytes count s e, 0 < fixedWidth t → S.run t bytes count s = .error e → C e
  null_error : ∀ t s e, S.null t s = .error e → C e
  nulls_error : ∀ t n s e, S.nulls t n s = .error e → C e
  structBegin_error : ∀ s e, S.structBegin s = .error e → C e
  list_error : ∀ kind item n s e, S.listBegin (.list kind item) n s = .error e → C e
  fixedSizeList_error : ∀ item size n s e, S.listBegin (.fixedSizeList item size) n s = .error e →
    C e
  mapBegin_error : ∀ n s e, S.mapBegin n s = .error e → C e
  unionBegin_error : ∀ mode fields code k s e, S.unionBegin mode fields code k s = .error e → C e

section Tracking

variable {σ : Type} {S : Sink σ} {leaf : DataType → Value → σ → Except BatchError σ}
  {P : DataType → Prop} {C : BatchError → Prop} {t : DataType}

theorem tracks_readU32 : Tracks readU32 parseU32 (fun a b => a = b) C := by
  refine tracks_take.bind ?_
  intro a b hab
  exact tracks_pure (by rw [hab.1])

theorem tracks_readByte : Tracks readByte parseByte (fun a b => a = b) C := by
  refine tracks_take.bind ?_
  intro a b hab
  exact tracks_pure (by rw [hab.1])

/-- The walk of values of the type goes along with the grammar. -/
def Follows (S : Sink σ) (leaf : DataType → Value → σ → Except BatchError σ)
    (C : BatchError → Prop) (t : DataType) : Prop :=
  ∀ s, Tracks (walkValue S t s) (parse t) (fun s' v => replay S leaf t v s = .ok s') C

theorem tracks_slot (hS : S.Lawful leaf P C) (h : Follows S leaf C t) (flag : Bool) (s : σ) :
    Tracks (walkSlot S t (walkValue S t) flag s) (slot .null (parse t) flag)
      (fun s' v => replaySlot S t (replay S leaf t) v s = .ok s' ∧ v.isNull = flag) C := by
  cases flag with
  | true => exact tracks_lift (fun s' hs' => ⟨hs', rfl⟩) (hS.null_error t s)
  | false =>
    refine ((h s).and_yields (yields_parse t)).mono ?_
    intro s' v hv
    refine ⟨?_, hv.2.isNull_eq⟩
    rw [replaySlot, hv.2.isNull_eq, if_neg (by simp)]
    exact hv.1

/-- Element after element. -/
theorem tracks_slots (hS : S.Lawful leaf P C) (h : Follows S leaf C t) (flags : List Bool) (s : σ) :
    Tracks (thread (flags.map fun flag => walkSlot S t (walkValue S t) flag) s)
      (runAll (flags.map (slot .null (parse t))))
      (fun s' vs => vs.foldlM (fun s v => replaySlot S t (replay S leaf t) v s) s = .ok s' ∧
        vs.map Value.isNull = flags) C := by
  refine (tracks_thread (fun flag s => tracks_slot hS h flag s) flags s).mono ?_
  intro s' vs hvs
  refine ⟨hvs.1, ?_⟩
  have hflg := hvs.2
  clear hvs
  induction hflg with
  | nil => rfl
  | cons hnull _ ih => rw [map_cons, hnull, ih]

/-- Slots that are all null have no bytes. -/
theorem runAll_null (x : Parse Value) : ∀ flags : List Bool, (∀ flag ∈ flags, flag = true) →
    runAll (flags.map (slot .null x)) = pure (replicate flags.length .null)
  | [], _ => rfl
  | flag :: flags, h => by
    have hrest := runAll_null x flags fun f hf => h f (mem_cons_of_mem flag hf)
    rw [map_cons, runAll, hrest, h flag mem_cons_self]
    rfl

theorem all_isNull_iff {flags : List Bool} (h : vs.map Value.isNull = flags) :
    vs.all Value.isNull = true ↔ ∀ flag ∈ flags, flag = true := by
  rw [all_eq_true, ← h]
  simp

theorem runValues_not_null (h : 0 < fixedWidth t) {bytes : Bytes} {v : Value}
    (hv : v ∈ runValues t bytes count) : v.isNull = false := by
  obtain ⟨j, -, hj⟩ := mem_map.mp hv
  rw [← hj]
  cases t with
  | bool | fixed _ => rfl
  | _ => cases h

/-- Slots that are not null are values. -/
theorem foldlM_replaySlot {play : Value → σ → Except BatchError σ}
    (h : ∀ v ∈ vs, v.isNull = false) (s : σ) :
    vs.foldlM (fun s v => replaySlot S t play v s) s = vs.foldlM (fun s v => play v s) s := by
  induction vs generalizing s with
  | nil => rfl
  | cons v vs ih =>
    have hv : replaySlot S t play v s = play v s := if_neg (by simp [h v mem_cons_self])
    rw [foldlM_cons, foldlM_cons, hv]
    cases play v s with
    | error e => rfl
    | ok s' => exact ih (fun w hw => h w (mem_cons_of_mem v hw)) s'

/-- One run: all the bytes at once, cut up afterwards. -/
theorem tracks_bulk (hS : S.Lawful leaf P C) (hwid : 0 < fixedWidth t) (hcnt : count ≠ 0) (s : σ) :
    Tracks (readBytes (count * fixedWidth t) >>= fun bytes => lift (S.run t bytes count s))
      (take () (count * fixedWidth t) >>= fun bytes =>
        (pure (runValues t bytes count) : Parse (List Value)))
      (fun s' vs => replayRun S t (replay S leaf t) vs s = .ok s' ∧ vs.length = count) C := by
  refine tracks_take.bind ?_
  intro bytes _ hby
  rw [← hby.1]
  have hlen : (runValues t bytes count).length = count := by simp [runValues]
  refine tracks_lift ?_ fun e he => hS.run_error t bytes count s e hwid he
  intro s' hs'
  refine ⟨?_, hlen⟩
  have hsome : ¬(runValues t bytes count).all Value.isNull = true := by
    rw [all_eq_true]
    intro hall
    obtain ⟨v, hv⟩ := exists_mem_of_length_pos (l := runValues t bytes count) (by omega)
    have hnull := hall v hv
    rw [runValues_not_null hwid hv] at hnull
    cases hnull
  rw [replayRun, if_neg hsome, replay_leaf (isLeaf_of_fixedWidth hwid),
    foldlM_replaySlot fun v hv => runValues_not_null hwid hv]
  exact hS.run t bytes count s s' hwid hby.2 hs'

/-- The elements behind the bitfield, whichever way they are read. -/
theorem tracks_run (hS : S.Lawful leaf P C) (h : Follows S leaf C t) {bitfield : Bytes}
    (hlen : bitfield.length = bitfieldBytes count) (hcnt : count ≠ 0) (s : σ) :
    Tracks (walkRun S t (walkValue S t) bitfield count s)
      (runAll ((nullFlags bitfield count).map (slot .null (parse t))))
      (fun s' vs => replayRun S t (replay S leaf t) vs s = .ok s' ∧ vs.length = count) C := by
  unfold walkRun
  by_cases hbulk : (0 < fixedWidth t && allValid bitfield) = true
  · rw [if_pos hbulk]
    rw [Bool.and_eq_true, decide_eq_true_eq] at hbulk
    obtain ⟨hwid, hval⟩ := hbulk
    have hsame : Same (take () (count * fixedWidth t) >>= fun bytes =>
        (pure (runValues t bytes count) : Parse (List Value)))
        (runAll ((nullFlags bitfield count).map (slot .null (parse t)))) := by
      rw [nullFlags_of_allValid hval, map_replicate]
      rw [parse_fixedWidth hwid]
      exact same_bulk count
    refine Tracks.of_check ((tracks_bulk hS hwid hcnt s).of_same hsame) ?_
    -- the run was read, so it was there
    intro bs p hp
    obtain ⟨bytes, _, htake, -⟩ := bind_eq_ok.mp ((hsame bs p).mpr hp)
    obtain ⟨hby, rfl⟩ := take_eq_ok.mp htake
    rw [decide_eq_true_eq, Nat.le_div_iff_mul_le hwid, length_append, hby]
    exact Nat.le_add_right _ _
  · rw [if_neg hbulk]
    by_cases hnull : allNull bitfield count = true
    · rw [if_pos hnull, runAll_null _ _ ((allNull_iff hlen).mp hnull), nullFlags_length]
      refine tracks_lift ?_ (hS.nulls_error t count s)
      intro s' hs'
      refine ⟨?_, by simp⟩
      rw [replayRun, if_pos (by simp [Value.isNull]), length_replicate]
      exact hs'
    · rw [if_neg hnull]
      refine (tracks_slots hS h _ s).mono ?_
      intro s' vs hvs
      refine ⟨?_, ?_⟩
      · have hsome : ¬vs.all Value.isNull = true := by
          rw [all_isNull_iff hvs.2, ← allNull_iff hlen]
          exact hnull
        rw [replayRun, if_neg hsome]
        exact hvs.1
      · rw [← length_map (f := Value.isNull), hvs.2, nullFlags_length]

/-- The body of a list. -/
theorem tracks_elements (hS : S.Lawful leaf P C) {list : DataType}
    (hbeg : ∀ s e, S.listBegin list count s = .error e → C e)
    (h : count ≠ 0 → Follows S leaf C t) (s : σ) :
    Tracks (walkElements S list t (walkValue S t) count s)
      (parseSlots (replicate count (parse t)))
      (fun s' vs => replayElements S list t (replay S leaf t) vs s = .ok s' ∧ vs.length = count)
      C := by
  unfold walkElements parseSlots
  rw [length_replicate]
  refine tracks_take.bind ?_
  intro bitfield _ hbits
  rw [← hbits.1, zipWith_replicate_left (nullFlags_length bitfield count)]
  refine tracks_lift_bind ?_ (hbeg s)
  intro s₁ hs₁
  by_cases hcnt : count = 0
  · subst hcnt
    refine tracks_pure ⟨?_, rfl⟩
    show (S.listBegin list 0 s >>= fun s => _) = _
    rw [hs₁]
    rfl
  · rw [if_neg hcnt]
    have hrun := tracks_run hS (h hcnt) hbits.2 hcnt (S.child 0 s₁)
    rw [← bind_pure_self (runAll _)]
    refine hrun.bind ?_
    intro c vs hvs
    refine tracks_pure ⟨?_, hvs.2⟩
    unfold replayElements
    rw [hvs.2, hs₁]
    show (if count = 0 then Except.ok s₁ else _) = _
    rw [if_neg hcnt, hvs.1]
    rfl

/-- The slots of a struct or a row. -/
theorem tracks_fields (hS : S.Lawful leaf P C) : ∀ {fields : List Field} {flags : List Bool},
    flags.length = fields.length → (∀ f ∈ fields, Follows S leaf C f.type) → ∀ k s,
    Tracks (walkFields S k (walkers S fields) flags s)
      (runAll (zipWith (slot .null) (parsers fields) flags))
      (fun s' vs => replayFields S k (replayers S leaf fields) vs s = .ok s') C
  | [], [], _, _, k, s => tracks_pure rfl
  | ⟨name, t, nullable⟩ :: fields, flag :: flags, hlen, h, k, s => by
    have hhead : Follows S leaf C t := h ⟨name, t, nullable⟩ mem_cons_self
    have hrest := tracks_fields hS (Nat.succ.inj hlen)
      (fun f hf => h f (mem_cons_of_mem _ hf)) (k + 1)
    refine (tracks_slot hS hhead flag (S.child k s)).bind ?_
    intro c v hv
    rw [← bind_pure_self (walkFields S (k + 1) (walkers S fields) flags (S.setChild k c s))]
    refine (hrest (S.setChild k c s)).bind ?_
    intro s' vs hvs
    refine tracks_pure ?_
    show (replaySlot S t (replay S leaf t) v (S.child k s) >>= fun c =>
      replayFields S (k + 1) (replayers S leaf fields) vs (S.setChild k c s)) = _
    rw [hv.1]
    exact hvs

/-- The entries of a map. The items are walked only where there was a key. -/
theorem tracks_entries (hS : S.Lawful leaf P C) {kt vt : DataType}
    (hk : Follows S leaf C kt) (hv : count ≠ 0 → inhabited kt = true → Follows S leaf C vt)
    (hkt : kt.supported = true) (s : σ) :
    Tracks (walkEntries S vt (walkValue S kt) (walkValue S vt) count s) (do
        let ks ← runAll (replicate count (parse kt))
        let vs ← parseSlots (replicate count (parse vt))
        pure (Value.map ks vs))
      (fun s' m => ∃ ks vs, m = .map ks vs ∧ ks.length = count ∧
        replayEntries S vt (replay S leaf kt) (replay S leaf vt) ks vs s = .ok s') C := by
  have hkeys : Tracks (thread ((replicate count ()).map fun _ => walkValue S kt) (S.child 0 s))
      (runAll ((replicate count ()).map fun _ => parse kt))
      (fun keys ks => ks.foldlM (fun s v => replay S leaf kt v s) (S.child 0 s) = .ok keys ∧
        Forall₂ (fun _ k => HasType kt k) (replicate count ()) ks) C :=
    tracks_thread (fun _ s => (hk s).and_yields (yields_parse kt)) (replicate count ()) _
  rw [map_replicate, map_replicate] at hkeys
  refine hkeys.bind ?_
  intro keys ks hks
  have hlen : ks.length = count := by
    rw [← hks.2.length_eq, length_replicate]
  -- a key that was read has a type with values
  have hitem : Follows S leaf C vt ∨ count = 0 := by
    by_cases hcnt : count = 0
    · exact .inr hcnt
    · left
      obtain ⟨_, hkey⟩ := exists_mem_of_length_pos (l := ks) (by omega)
      obtain ⟨j, hj⟩ := mem_iff_getElem?.mp hkey
      obtain ⟨_, _, hty⟩ := forall₂_getElem?_right hks.2 hj
      exact hv hcnt (inhabited_of_hasType hkt hty)
  unfold parseSlots
  rw [length_replicate, bind_bind]
  refine tracks_take.bind ?_
  intro bitfield _ hbits
  rw [← hbits.1, zipWith_replicate_left (nullFlags_length bitfield count)]
  have hits : Tracks (thread ((nullFlags bitfield count).map fun flag =>
      walkSlot S vt (walkValue S vt) flag) (S.child 1 (S.setChild 0 keys s)))
      (runAll ((nullFlags bitfield count).map (slot .null (parse vt))))
      (fun items vs => vs.foldlM (fun s v => replaySlot S vt (replay S leaf vt) v s)
        (S.child 1 (S.setChild 0 keys s)) = .ok items) C := by
    rcases hitem with hitem | hcnt
    · exact (tracks_slots hS hitem _ _).mono fun _ _ h => h.1
    · subst hcnt
      exact tracks_pure rfl
  refine hits.bind ?_
  intro items vs hvs
  refine tracks_pure ⟨ks, vs, rfl, hlen, ?_⟩
  unfold replayEntries
  rw [hks.1]
  show (vs.foldlM _ _ >>= fun items => Except.ok (S.setChild 1 items (S.setChild 0 keys s))) = _
  rw [hvs]
  rfl

/-- **The walk reads what the grammar reads**, and calls the sink as the value asks, as long
as no value of the type holds a scalar the sink reads differently. -/
theorem tracks_walkValue (hS : S.Lawful leaf P C) (ht : t.supported = true) (hP : ¬Holds P t) :
    Follows S leaf C t := by
  induction ht using DataType.supported_rec with
  | bool | fixed _ | var _ =>
    intro s
    rw [replay_leaf rfl]
    exact hS.scalar _ s rfl fun hp => hP (.here rfl hp)
  | struct fields _ ih =>
    intro s
    have hfs : ∀ f ∈ fields, Follows S leaf C f.type :=
      fun f hf => ih f hf fun hh => hP (.field hf hh)
    have hlen : (parsers fields).length = fields.length := by simp [parsers_eq_map]
    unfold walkValue parse parseSlots
    rw [hlen, bind_bind]
    refine tracks_take.bind ?_
    intro bitfield _ hbits
    rw [← hbits.1]
    refine tracks_lift_bind ?_ (hS.structBegin_error s)
    intro s₁ hs₁
    rw [← bind_pure_self (walkFields S 0 (walkers S fields) _ s₁)]
    refine (tracks_fields hS (nullFlags_length bitfield fields.length) hfs 0 s₁).bind ?_
    intro s' vs hvs
    refine tracks_pure ?_
    show (S.structBegin s >>= fun s => _) = _
    rw [hs₁]
    exact hvs
  | list kind item _ ih =>
    intro s
    have hitem : Follows S leaf C item.type := ih fun hh => hP (.element hh)
    refine tracks_readU32.bind ?_
    intro count count' hcnt
    subst hcnt
    refine Tracks.of_check ?_ ?_
    · rw [← bind_pure_self (walkElements S _ _ _ _ _)]
      refine (tracks_elements hS (fun s e => hS.list_error kind item count s e)
        (fun _ => hitem) s).bind ?_
      intro s' vs hvs
      exact tracks_pure hvs.1
    · intro _ p hp
      obtain ⟨v, _⟩ := p
      obtain ⟨vs, _, hsl, -⟩ := bind_eq_ok.mp hp
      have hleng := parseSlots_length hsl
      rw [length_replicate] at hleng
      exact decide_eq_true hleng
  | fixedSizeList item size _ ih =>
    intro s
    show Tracks (walkElements S (.fixedSizeList item size) item.type (walkValue S item.type) size s)
      _ _ _
    rw [← bind_pure_self (walkElements S _ _ _ _ _)]
    refine (tracks_elements hS (fun s e => hS.fixedSizeList_error item size size s e)
      (fun hsize => ih fun hh => hP (.fixedElement (Nat.pos_of_ne_zero hsize) hh)) s).bind ?_
    intro s' vs hvs
    exact tracks_pure hvs.1
  | map key item _ ht ihk ihv =>
    intro s
    refine tracks_readU32.bind ?_
    intro count count' hcnt
    subst hcnt
    refine Tracks.require_both ?_
    refine tracks_lift_bind ?_ (hS.mapBegin_error count s)
    intro s₁ hs₁
    refine (tracks_entries hS (ihk fun hh => hP (.key hh))
      (fun _ hkey => ihv fun hh => hP (.item hkey hh)) (supported_map.mp ht).1 s₁).mono ?_
    intro s' m hm
    obtain ⟨ks, vs, rfl, hlen, hplay⟩ := hm
    show (S.mapBegin ks.length s >>= fun s => _) = _
    rw [hlen, hs₁]
    exact hplay
  | union mode fields codes ht ih =>
    intro s
    refine tracks_readByte.bind ?_
    intro code _ hcode
    subst hcode
    cases hk : childId codes code with
    | none => exact tracks_fail _ _
    | some k =>
      have hlt : k < fields.length := by
        have := childId_lt hk
        have hlen : codes.length = fields.length := by simpa using (supported_union.mp ht).1
        omega
      have hf : fields[k]? = some fields[k] := getElem?_eq_getElem hlt
      have hmem := mem_of_getElem? hf
      have hch : Follows S leaf C fields[k].type :=
        ih _ hmem fun hh => hP (.active hk hf hh)
      refine tracks_lift_bind ?_ (hS.unionBegin_error mode fields code k s)
      intro s₁ hs₁
      unfold walkChild
      simp only [walkers_eq_map, parsers_eq_map, getElem?_map, hf, Option.map_some]
      refine ((hch (S.child k s₁)).and_yields (yields_parse _)).bind ?_
      intro c v hv
      refine tracks_pure ?_
      rw [replay, hk]
      show (S.unionBegin mode fields code k s >>= fun s => _) = _
      rw [hs₁]
      unfold replayChild
      rw [replayers_eq_map, getElem?_map, hf]
      show (replaySlot S fields[k].type (replay S leaf fields[k].type) v (S.child k s₁) >>= _) = _
      rw [replaySlot, hv.2.isNull_eq, if_neg (by simp), hv.1]
      rfl

/-- A row, up to the end of it. -/
theorem tracks_row (hS : S.Lawful leaf P C) {fields : List Field}
    (h : ∀ f ∈ fields, f.type.supported = true ∧ ¬Holds P f.type) (s : σ) :
    Tracks (do
        let bitfield ← readBytes (bitfieldBytes fields.length)
        walkFields S 0 (walkers S fields) (nullFlags bitfield fields.length) s)
      (parseSlots (parsers fields))
      (fun s' row => replayRow S leaf fields row s = .ok s') C := by
  have hlen : (parsers fields).length = fields.length := by simp [parsers_eq_map]
  unfold parseSlots
  rw [hlen]
  refine tracks_take.bind ?_
  intro bitfield _ hbits
  rw [← hbits.1]
  exact tracks_fields hS (nullFlags_length bitfield fields.length)
    (fun f hf => tracks_walkValue hS (h f hf).1 (h f hf).2) 0 s

end Tracking

end Fletcher.Bridge.Batch
