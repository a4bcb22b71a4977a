import Fletcher.Bridge.BatchSinks
import Fletcher.Bridge.MapCounts

/-!
# What the batch decoder accepts

`Append` and `Codec::DecodeRow` accept the same rows, and both passes of `Append` read the
same bytes, under every schema that has no room for a value of `fixed_size_binary(0)`. Under
any other schema they do not.

One direction is the walk itself (`tracks_walkValue`). For the other a row is made that has
one such value and nothing else that is not null, so that next to nothing follows it. The
row codec reads the value from no bytes; the skip pass wants a length, and either it is not
there or reading on from it leaves too little for what has to follow. What can follow at all
is a bitfield for each map the value is a key in, and with all bits set these bytes say null
to whoever reads them (`tail`).
-/

namespace Fletcher.Bridge.Batch

open Lib Arrow Reader
open List (append_assoc getElem?_map length_append length_cons length_replicate map_cons
  replicate zipWith)

variable {fields : List Field}

variable {t : DataType} {n : Nat} {rest : Bytes} {s : Builder × Pending}

/-! ## Reading astray -/

/-- The state of a skip pass before anything is read, on empty builders. -/
def untouched (t : DataType) : Builder × Pending := (makeBuilder t, fun _ => 0)

/-- Bytes that say null, as the bitfield of one slot. -/
def tail (k : Nat) : Bytes := List.replicate k 255

theorem tail_add (j k : Nat) : tail j ++ tail k = tail (j + k) := List.replicate_append_replicate

theorem take_tail {ε : Type} {e : ε} {k : Nat} {a : Bytes}
    (h : take e n (tail k) = .ok (a, rest)) : n ≤ k ∧ rest = tail (k - n) := by
  unfold take tail at h
  rw [length_replicate] at h
  by_cases hn : n ≤ k
  · rw [if_pos hn] at h
    have hrest := (Prod.mk.inj (Except.ok.inj h)).2
    rw [List.drop_replicate] at hrest
    exact ⟨hn, hrest.symm⟩
  · rw [if_neg hn] at h
    cases h

/-- The reader fails, and neither for want of room nor in a builder, or leaves fewer than `k` bytes
of a tail. -/
structure Astray {α : Type} (x : Wire α) (input : Bytes) (k : Nat) : Prop where
  ok : ∀ {a rest}, x input = .ok (a, rest) → ∃ j, j < k ∧ rest = tail j
  error : ∀ {e}, x input = .error e → e.isCapacity = false ∧ e.isBuilder = false

section Astray

variable {α β : Type} {x : Wire α} {f : α → Wire β} {input mid : Bytes} {k : Nat}

theorem Astray.of_ok {a : α} (hx : x input = .ok (a, mid)) (hf : Astray (f a) mid k) :
    Astray (x >>= f) input k := by
  have heq : (x >>= f) input = f a mid := bind_of_ok hx
  exact ⟨fun h => hf.ok (heq.symm.trans h), fun h => hf.error (heq.symm.trans h)⟩

/-- After a reader that went astray, only the tail is left to read. -/
theorem Astray.bind {m : Nat} (hx : Astray x input m)
    (hf : ∀ a j, j < m → Astray (f a) (tail j) k) : Astray (x >>= f) input k := by
  cases hrun : x input with
  | error e =>
    have heq : (x >>= f) input = .error e := bind_of_error hrun
    refine ⟨?_, ?_⟩
    · intro b rest h
      rw [heq] at h
      cases h
    · intro _ h
      rw [heq] at h
      cases h
      exact hx.error hrun
  | ok p =>
    obtain ⟨a, rest⟩ := p
    obtain ⟨j, hj, rfl⟩ := hx.ok hrun
    exact Astray.of_ok hrun (hf a j hj)

theorem astray_pure {a : α} {j : Nat} (h : j < k) : Astray (pure a : Wire α) (tail j) k := by
  refine ⟨?_, nofun⟩
  intro b _ hb
  obtain ⟨-, rfl⟩ := pure_eq_ok.mp hb
  exact ⟨j, h, rfl⟩

/-- A check on what is left that holds. -/
theorem Astray.checked {e : Nat → BatchError} {c : Nat → Bool} (hc : c input.length = true)
    (hx : Astray x input k) :
    Astray (remaining >>= fun left => require (e left) (c left) >>= fun _ => x) input k := by
  refine Astray.of_ok remaining_apply ?_
  refine Astray.of_ok (a := ()) (require_eq_ok.mpr ⟨hc, rfl⟩) hx

/-- A take from a tail leaves a tail, or fails. -/
theorem astray_take {j : Nat} (h : j < k + n) : Astray (readBytes n) (tail j) k := by
  refine ⟨?_, ?_⟩
  · intro a _ ha
    obtain ⟨_, rfl⟩ := take_tail ha
    exact ⟨j - n, by omega, rfl⟩
  · intro e he
    unfold readBytes take at he
    split at he
    · cases he
    · cases he
      exact ⟨rfl, rfl⟩

end Astray

/-! ## Nulls cost the skip pass nothing -/

theorem skip_setChild_child (k : Nat) (s : Builder × Pending) :
    skipSink.setChild k (skipSink.child k s) s = s := by
  obtain ⟨b, p⟩ := s
  show (b, Pending.setChild k (Pending.child k p) p) = (b, p)
  congr 1
  funext path
  cases path with
  | nil => rfl
  | cons j path =>
    show (if j = k then p (k :: path) else p (j :: path)) = p (j :: path)
    by_cases hj : j = k
    · rw [if_pos hj, hj]
    · rw [if_neg hj]

theorem thread_null (t : DataType) (walk : Builder × Pending → Wire (Builder × Pending)) :
    ∀ (n : Nat) (s : Builder × Pending),
      thread ((replicate n true).map fun flag => walkSlot skipSink t walk flag) s = pure s
  | 0, _ => rfl
  | n + 1, s => by
    rw [List.replicate_succ, map_cons]
    exact thread_null t walk n s

theorem walkFields_null : ∀ (fields : List Field) (k : Nat) (s : Builder × Pending),
    walkFields skipSink k (walkers skipSink fields) (replicate fields.length true) s = pure s
  | [], _, _ => rfl
  | ⟨_, t, _⟩ :: fields, k, s => by
    rw [length_cons, List.replicate_succ, walkers]
    show walkFields skipSink (k + 1) (walkers skipSink fields) _
      (skipSink.setChild k (skipSink.child k s) s) = pure s
    rw [skip_setChild_child]
    exact walkFields_null fields (k + 1) s

theorem runAll_fields_null : ∀ (fields : List Field),
    runAll (zipWith (slot .null) (parsers fields) (replicate fields.length true)) =
      pure (replicate fields.length Value.null)
  | [] => rfl
  | ⟨_, t, _⟩ :: fields => by
    rw [length_cons, List.replicate_succ, parsers, List.zipWith_cons_cons, runAll,
      runAll_fields_null fields]
    rfl

/-- All fields null but the one between `pre` and `post`. -/
def onlyFlag (pre post : List Field) : List Bool :=
  List.replicate pre.length true ++ false :: List.replicate post.length true

theorem parsers_length (fields : List Field) : (parsers fields).length = fields.length := by
  simp [parsers_eq_map]

theorem onlyFlag_length (pre : List Field) (f : Field) (post : List Field) :
    (onlyFlag pre post).length = (pre ++ f :: post).length := by simp [onlyFlag]

theorem parse_only {f : Field} (post : List Field) {input : Bytes} {v : Value}
    (h : parse f.type input = .ok (v, rest)) : ∀ (pre : List Field), ∃ vs,
      runAll (zipWith (slot .null) (parsers (pre ++ f :: post)) (onlyFlag pre post)) input =
        .ok (vs, rest)
  | [] => by
    refine ⟨v :: replicate post.length .null, ?_⟩
    show (runAll (parse f.type :: zipWith (slot .null) (parsers post)
      (replicate post.length true))) input = _
    rw [runAll, bind_of_ok h, runAll_fields_null]
    rfl
  | ⟨name, t, nullable⟩ :: pre => by
    obtain ⟨vs, hvs⟩ := parse_only post h pre
    refine ⟨.null :: vs, ?_⟩
    show (runAll (pure Value.null :: zipWith (slot .null) (parsers (pre ++ f :: post))
      (onlyFlag pre post))) input = _
    rw [runAll, bind_of_ok (pure_apply _ input), bind_of_ok hvs]
    rfl

theorem astray_only {f : Field} {post : List Field} {input : Bytes} {k : Nat} :
    ∀ (pre : List Field) (i : Nat) (s : Builder × Pending),
      Astray (walkValue skipSink f.type (skipSink.child (i + pre.length) s)) input k →
      Astray (walkFields skipSink i (walkers skipSink (pre ++ f :: post)) (onlyFlag pre post) s)
        input k
  | [], i, s, h => by
    refine h.bind ?_
    intro c j hj
    rw [walkFields_null]
    exact astray_pure hj
  | ⟨name, t, nullable⟩ :: pre, i, s, h => by
    show Astray (walkFields skipSink (i + 1) (walkers skipSink (pre ++ f :: post))
      (onlyFlag pre post) (skipSink.setChild i (skipSink.child i s) s)) input k
    rw [skip_setChild_child]
    refine astray_only pre (i + 1) s ?_
    rw [length_cons] at h
    rw [show i + 1 + pre.length = i + (pre.length + 1) by omega]
    exact h

/-! ## Elements, of which the first is not null -/

/-- The flags of a run whose first slot alone is not null. -/
def firstFlag (m : Nat) : List Bool := false :: List.replicate m true

theorem firstFlag_length (m : Nat) : (firstFlag m).length = m + 1 := by simp [firstFlag]

theorem parse_first {input : Bytes} {v : Value} (h : parse t input = .ok (v, rest)) (m : Nat) :
    parseSlots (replicate (m + 1) (parse t)) (packBits (firstFlag m) ++ input) =
      .ok (v :: replicate m .null, rest) := by
  unfold parseSlots
  rw [length_replicate,
    bind_of_ok (reads_packBits (firstFlag_length m) input),
    zipWith_replicate_left (nullFlags_length _ _), nullFlags_packBits (firstFlag_length m),
    firstFlag, map_cons, runAll]
  show (parse t >>= _) input = _
  rw [bind_of_ok h, runAll_null _ _ (by simp), length_replicate]
  rfl

theorem astray_first {list : DataType} {s₁ : Builder × Pending} {input : Bytes} {k m : Nat}
    (hwid : fixedWidth t = 0) (hbeg : skipSink.listBegin list (m + 1) s = .ok s₁)
    (h : Astray (walkValue skipSink t (skipSink.child 0 s₁)) input k) :
    Astray (walkElements skipSink list t (walkValue skipSink t) (m + 1) s)
      (packBits (firstFlag m) ++ input) k := by
  have hflags := nullFlags_packBits (firstFlag_length m)
  have hsome : ¬allNull (packBits (firstFlag m)) (m + 1) = true := by
    rw [allNull_iff (by rw [packBits_length, firstFlag_length]), hflags]
    intro hall
    exact absurd (hall false List.mem_cons_self) (by simp)
  refine Astray.of_ok (reads_packBits (firstFlag_length m) input) ?_
  refine Astray.of_ok (a := s₁) (by rw [hbeg]; rfl) ?_
  rw [if_neg (by omega)]
  -- no run, not all null: element after element, and the rest of them are null
  unfold walkRun
  rw [if_neg (by simp [hwid]), if_neg hsome, hflags, firstFlag, map_cons]
  refine Astray.bind (m := k) ?_ fun c j hj => astray_pure hj
  refine h.bind ?_
  intro c j hj
  rw [thread_null]
  exact astray_pure hj

theorem fixedWidth_of_holds (h : Holds ZeroWidth t) : fixedWidth t = 0 := by
  cases h with
  | here _ p =>
    cases t with
    | fixed _ => exact p
    | _ => exact p.elim
  | _ => rfl

/-! ## Bytes both passes read -/

theorem reads_readU32 (h : n < 2 ^ 32) : Reads readU32 (leBytes 4 n) n := by
  intro rest
  have htake := reads_take_of_length underrun (leBytes_length 4 n) rest
  have hread := bind_of_ok (f := fun bs => (pure (ofLe bs) : Wire Nat)) htake
  refine hread.trans ?_
  rw [ofLe_leBytes h]
  rfl

theorem reads_readByte (c : UInt8) : Reads readByte [c] c := fun _ => rfl

theorem budget_untouched {text : String} {count : Nat} (h : count ≤ kBuilderLimit) :
    budget text 0 count (untouched t) = .ok (makeBuilder t, Pending.setOwn count fun _ => 0) := by
  unfold budget untouched
  dsimp only
  rw [if_neg (by omega), Nat.zero_add]

theorem child_untouched_struct {k : Nat} {f : Field} (hf : fields[k]? = some f) :
    skipSink.child k (untouched (.struct fields)) = untouched f.type := by
  show ((makeBuilders fields).getD k .empty, _) = _
  rw [makeBuilders_eq_map, List.getD_eq_getElem?_getD, getElem?_map, hf]
  rfl

theorem child_untouched_union (mode : UnionMode) (codes : List UInt8) {k : Nat}
    {f : Field} (hf : fields[k]? = some f) :
    skipSink.child k (untouched (.union mode fields codes)) = untouched f.type :=
  child_untouched_struct hf

/-- A union's first call on fresh builders finds room. -/
theorem unionBegin_untouched {mode : UnionMode} {codes : List UInt8}
    {code : UInt8} {k : Nat} {f : Field} (hf : fields[k]? = some f) :
    ∃ s, skipSink.unionBegin mode fields code k (untouched (.union mode fields codes)) = .ok s ∧
      skipSink.child k s = untouched f.type := by
  have hch := child_untouched_union mode codes hf
  cases mode with
  | sparse => exact ⟨_, rfl, hch⟩
  | dense =>
    have hused : ((makeBuilder (.union .dense fields codes)).child k).length = 0 := by
      rw [show (makeBuilder (.union .dense fields codes)).child k = makeBuilder f.type from
        congrArg Prod.fst hch]
      exact makeBuilder_length f.type
    refine ⟨(makeBuilder (.union .dense fields codes), Pending.setOwn 1 fun _ => 0), ?_, hch⟩
    show budget _ ((makeBuilder (.union .dense fields codes)).child k).length 1 _ = _
    rw [hused, budget_untouched (by decide)]

/-- A list's first call on fresh builders finds room for a few elements. -/
theorem listBegin_untouched {kind : ListKind} {item : Field} (h : n ≤ kBuilderLimit) :
    ∃ s, skipSink.listBegin (.list kind item) n (untouched (.list kind item)) = .ok s ∧
      skipSink.child 0 s = untouched item.type := by
  cases kind with
  | largeList => exact ⟨_, rfl, rfl⟩
  | list =>
    refine ⟨(makeBuilder (.list .list item), Pending.setOwn n fun _ => 0), ?_, rfl⟩
    show budget _ (makeBuilder item.type).length n _ = _
    rw [makeBuilder_length, budget_untouched h]

theorem mapBegin_untouched {key item : Field} {sorted : Bool} (h : n ≤ kBuilderLimit) :
    skipSink.mapBegin n (untouched (.map key item sorted)) =
      .ok (makeBuilder (.map key item sorted), Pending.setOwn n fun _ => 0) := by
  show budget _ (makeBuilder item.type).length n _ = _
  rw [makeBuilder_length, budget_untouched h]

theorem nullFlags_null (n : Nat) : nullFlags (packBits (replicate n true)) n = replicate n true :=
  nullFlags_packBits length_replicate

theorem reads_parse_nulls :
    Reads (parseSlots (replicate n (parse t))) (packBits (replicate n true))
      (replicate n .null) := by
  unfold parseSlots
  rw [length_replicate]
  refine (reads_packBits length_replicate).before ?_
  rw [zipWith_replicate_left (nullFlags_length _ _), nullFlags_null, runAll_null _ _ (by simp),
    length_replicate]
  exact reads_pure _

theorem reads_walk_nulls {list : DataType} {s₁ : Builder × Pending}
    (hbeg : skipSink.listBegin list n s = .ok s₁) :
    Reads (walkElements skipSink list t (walkValue skipSink t) n s)
      (packBits (replicate n true)) s₁ := by
  refine (reads_packBits length_replicate).before ?_
  refine (reads_lift hbeg).before ?_
  by_cases hn : n = 0
  · rw [if_pos hn]
    exact reads_pure s₁
  · have hval : ¬allValid (packBits (replicate n true)) = true := by
      intro h
      have hflg := nullFlags_of_allValid h n
      rw [nullFlags_null, List.replicate_inj] at hflg
      rcases hflg.2 with h0 | h1
      · exact hn h0
      · cases h1
    have hnull : allNull (packBits (replicate n true)) n = true := by
      rw [allNull_iff (by rw [packBits_length, length_replicate]), nullFlags_null]
      intro _ hflag
      exact (List.mem_replicate.mp hflag).2
    rw [if_neg hn]
    unfold walkRun
    rw [if_neg (by simp [hval]), if_pos hnull]
    have hkeep := skip_setChild_child 0 s₁
    have hread : Reads (lift (skipSink.nulls t n (skipSink.child 0 s₁)) >>= fun c =>
        (pure (skipSink.setChild 0 c s₁) : Wire _)) []
        (skipSink.setChild 0 (skipSink.child 0 s₁) s₁) := (reads_lift rfl).bind_pure
    rwa [hkeep] at hread

theorem reads_skipVar (vt : VarType) :
    ∃ s, Reads (skipScalar (.var vt) (untouched (.var vt))) (leBytes 4 0) s := by
  have hlen : Reads readU32 (leBytes 4 0) 0 := reads_readU32 (by decide)
  have hdata : Reads (readBytes 0) [] [] := reads_take_of_length underrun rfl
  cases vt with
  | string | binary =>
    exact ⟨_, hlen.before (hdata.before (reads_lift (budget_untouched (by decide))))⟩
  | _ => exact ⟨_, hlen.before (hdata.before (reads_pure _))⟩

/-- A type with values, none of which holds a zero-width value, has one that both the grammar
and the skip pass read. -/
theorem exists_read (ht : t.supported = true) (hin : inhabited t = true)
    (hP : ¬Holds ZeroWidth t) : ∃ bs v s,
      Reads (parse t) bs v ∧ Reads (walkValue skipSink t (untouched t)) bs s := by
  induction ht using DataType.supported_rec with
  | bool => exact ⟨[0], .bool false, untouched .bool, fun _ => rfl, fun _ => rfl⟩
  | fixed ft =>
    have hwid : 0 < ft.width := Nat.pos_of_ne_zero fun h => hP (.here rfl h)
    have hlen : (replicate ft.width (0 : UInt8)).length = ft.width := by simp
    refine ⟨replicate ft.width 0, _, untouched (.fixed ft),
      (reads_take_of_length () hlen).bind_pure, ?_⟩
    show Reads (skipScalar (.fixed ft) _) _ _
    unfold skipScalar
    rw [if_pos (show 0 < fixedWidth (.fixed ft) from hwid)]
    exact (reads_take_of_length underrun hlen).bind_pure
  | var vt =>
    obtain ⟨s, hs⟩ := reads_skipVar vt
    have hlen : Reads parseU32 (leBytes 4 0) 0 := reads_parseU32 (by decide)
    have hdata : Reads (take () 0) [] [] := reads_take_of_length () rfl
    exact ⟨leBytes 4 0, .binary vt [], s, hlen.before hdata.bind_pure, hs⟩
  | struct fields _ ih =>
    refine ⟨packBits (replicate fields.length true),
      .struct (replicate fields.length .null), untouched (.struct fields), ?_, ?_⟩
    · unfold parse parseSlots
      rw [parsers_length, bind_bind]
      refine (reads_packBits length_replicate).before ?_
      rw [nullFlags_null, runAll_fields_null]
      exact reads_pure _
    · unfold walkValue
      refine (reads_packBits length_replicate).before ?_
      refine (reads_lift (a := untouched (.struct fields)) rfl).before ?_
      rw [nullFlags_null, walkFields_null]
      exact reads_pure _
  | list kind item _ ih =>
    obtain ⟨s, hs, -⟩ := listBegin_untouched (n := 0) (by decide)
    refine ⟨leBytes 4 0 ++ packBits (replicate 0 true), .list (replicate 0 .null), s, ?_, ?_⟩
    · exact (reads_parseU32 (by decide)).bind reads_parse_nulls.bind_pure
    · refine (reads_readU32 (n := 0) (by decide)).bind (Reads.checked ?_ (reads_walk_nulls hs))
      intro n _
      exact decide_eq_true (Nat.zero_le n)
  | fixedSizeList item size _ ih =>
    refine ⟨packBits (replicate size true), .list (replicate size .null),
      untouched (.fixedSizeList item size), ?_, ?_⟩
    · exact reads_parse_nulls.bind_pure
    · exact reads_walk_nulls rfl
  | map key item sorted _ _ _ =>
    have hwalk : ∃ s, Reads (walkEntries skipSink item.type (walkValue skipSink key.type)
        (walkValue skipSink item.type) 0
        (makeBuilder (.map key item sorted), Pending.setOwn 0 fun _ => 0)) [] s :=
      ⟨_, fun _ => rfl⟩
    obtain ⟨s, hs⟩ := hwalk
    refine ⟨leBytes 4 0, .map [] [], s, ?_, ?_⟩
    · refine (reads_parseU32 (n := 0) (by decide)).before (Reads.checked (fun n _ => by simp) ?_)
      exact (reads_pure (ε := Unit) []).before reads_parse_nulls.bind_pure
    · refine (reads_readU32 (n := 0) (by decide)).before (Reads.checked (fun n _ => by simp) ?_)
      exact (reads_lift (mapBegin_untouched (by decide))).before hs
  | union mode fields codes _ ih =>
    rw [inhabited, List.any_eq_true] at hin
    obtain ⟨code, -, hcode⟩ := hin
    cases hk : childId codes code with
    | none => rw [hk] at hcode; cases hcode
    | some k =>
      rw [hk] at hcode
      dsimp only at hcode
      rw [inhabiteds_eq_map, List.getD_eq_getElem?_getD, getElem?_map] at hcode
      cases hf : fields[k]? with
      | none => rw [hf] at hcode; cases hcode
      | some f =>
        rw [hf] at hcode
        have hmem := List.mem_of_getElem? hf
        obtain ⟨bs, v, s, hpar, hwalk⟩ :=
          ih f hmem hcode fun hh => hP (.active hk hf hh)
        obtain ⟨s₁, hbeg, hch⟩ := unionBegin_untouched hf
        refine ⟨[code] ++ bs, .union code v, skipSink.setChild k s s₁, ?_, ?_⟩
        · refine (reads_parseByte code).bind ?_
          simp only [hk, parsers_eq_map, getElem?_map, hf, Option.map_some]
          exact hpar.bind_pure
        · refine (reads_readByte code).bind ?_
          simp only [hk]
          refine (reads_lift hbeg).after ?_
          unfold walkChild
          simp only [walkers_eq_map, getElem?_map, hf, Option.map_some]
          refine Reads.bind_pure (f := fun c => skipSink.setChild k c s₁) ?_
          rw [hch]
          exact hwalk

/-! ## A value the skip pass misreads -/

/-- A null item behind the keys of a map with one entry, in a byte of the tail. -/
theorem parse_null_item (t : DataType) (k : Nat) :
    parseSlots (replicate 1 (parse t)) (tail (k + 1)) = .ok ([.null], tail k) := by
  have htake : take () (bitfieldBytes 1) (tail (k + 1)) = .ok ([255], tail k) := rfl
  unfold parseSlots
  rw [length_replicate, bind_of_ok htake, show nullFlags [255] 1 = [true] by decide]
  rfl

/-- A map with one entry. -/
theorem parse_entry {key item : Field} {sorted : Bool} {input mid : Bytes} {k : Value}
    {vs : List Value} (hcnt : 1 ≤ input.length) (hkey : parse key.type input = .ok (k, mid))
    (hitem : parseSlots (replicate 1 (parse item.type)) mid = .ok (vs, rest)) :
    parse (.map key item sorted) (leBytes 4 1 ++ input) = .ok (.map [k] vs, rest) := by
  have hkeys : runAll (replicate 1 (parse key.type)) input = .ok ([k], mid) := by
    show (parse key.type >>= _) input = _
    rw [bind_of_ok hkey]
    rfl
  show (parseU32 >>= _) _ = _
  rw [bind_of_ok (reads_parseU32 (by decide) input), bind_of_ok remaining_apply,
    decide_eq_true hcnt]
  show (runAll (replicate 1 (parse key.type)) >>= _) input = _
  rw [bind_of_ok hkeys, bind_of_ok hitem]
  rfl

theorem astray_entries_key {kt vt : DataType} {input : Bytes} {k : Nat}
    (h : Astray (walkValue skipSink kt (skipSink.child 0 s)) input (k + 1)) :
    Astray
      (walkEntries skipSink vt (walkValue skipSink kt) (walkValue skipSink vt) 1 s) input k := by
  refine Astray.bind (m := k + 1) (h.bind fun c j hj => astray_pure hj) ?_
  intro _ j hj
  -- the bitfield of the items is the next byte of the tail, if there is one
  cases j with
  | zero => exact ⟨nofun, fun he => by cases he; exact ⟨rfl, rfl⟩⟩
  | succ j =>
    have hread : readBytes 1 (tail (j + 1)) = .ok ([255], tail j) := rfl
    refine Astray.of_ok hread ?_
    exact Astray.bind (m := k) (astray_pure (by omega)) fun items i hi => astray_pure hi

theorem astray_entries_item {kt vt : DataType} {keys : Builder × Pending} {bs input : Bytes}
    {k : Nat} (hkey : Reads (walkValue skipSink kt (skipSink.child 0 s)) bs keys)
    (h : Astray (walkValue skipSink vt (skipSink.child 1 s)) input k) :
    Astray (walkEntries skipSink vt (walkValue skipSink kt) (walkValue skipSink vt) 1 s)
      (bs ++ (packBits (firstFlag 0) ++ input)) k := by
  have hkeys : Reads (thread (replicate 1 (walkValue skipSink kt)) (skipSink.child 0 s)) bs
      keys := hkey.before (reads_pure keys)
  refine Astray.of_ok (hkeys _) ?_
  refine Astray.of_ok (reads_packBits (firstFlag_length 0) input) ?_
  rw [nullFlags_packBits (firstFlag_length 0)]
  refine Astray.bind (m := k) (h.bind fun c j hj => astray_pure hj) ?_
  intro _ j hj
  exact astray_pure hj

theorem astray_map {key item : Field} {sorted : Bool} {input : Bytes} {k : Nat}
    (hcnt : 1 ≤ input.length)
    (h : Astray (walkEntries skipSink item.type (walkValue skipSink key.type)
      (walkValue skipSink item.type) 1
      (makeBuilder (.map key item sorted), Pending.setOwn 1 fun _ => 0)) input k) :
    Astray (walkValue skipSink (.map key item sorted) (untouched (.map key item sorted)))
      (leBytes 4 1 ++ input) k := by
  refine Astray.of_ok (reads_readU32 (n := 1) (by decide) _) ?_
  refine Astray.checked (decide_eq_true hcnt) (Astray.of_ok ?_ h)
  rw [mapBegin_untouched (by decide)]
  rfl

/-- **The skip pass goes astray** on some value of every type that can hold a zero-width
value, where the grammar reads it. -/
theorem exists_astray (ht : t.supported = true) (h : Holds ZeroWidth t) (k : Nat) :
    ∃ bs v, parse t (bs ++ tail k) = .ok (v, tail k) ∧
      Astray (walkValue skipSink t (untouched t)) (bs ++ tail k) k := by
  induction ht using DataType.supported_rec generalizing k with
  | bool | var _ =>
    cases h with
    | here _ p => exact p.elim
  | fixed ft =>
    have hwid : ft.width = 0 := by
      cases h with
      | here _ p => exact p
    refine ⟨[], .fixed (FixedValue.ofBytes ft []), ?_, ?_⟩
    · have htake : take () ft.width (tail k) = .ok ([], tail k) := by
        rw [hwid]
        rfl
      exact bind_of_ok htake
    · -- four bytes and then some, of a tail
      show Astray (skipScalar (.fixed ft) _) (tail k) k
      unfold skipScalar
      rw [if_neg (by rw [show fixedWidth (.fixed ft) = 0 from hwid]; omega)]
      have hlen : Astray readU32 (tail k) k :=
        Astray.bind (m := k) (astray_take (by omega)) fun bs j hj => astray_pure hj
      refine hlen.bind ?_
      intro _ j hj
      refine Astray.bind (m := k) (astray_take (by omega)) ?_
      intro bs i hi
      exact astray_pure hi
  | struct fields _ ih =>
    obtain ⟨f, hmem, hf⟩ : ∃ f ∈ fields, Holds ZeroWidth f.type := by
      cases h with
      | here leaf _ => cases leaf
      | field mem hf => exact ⟨_, mem, hf⟩
    obtain ⟨bs, v, hpar, hwalk⟩ := ih f hmem hf k
    obtain ⟨pre, post, rfl⟩ := List.append_of_mem hmem
    obtain ⟨vs, hvs⟩ := parse_only post hpar pre
    refine ⟨packBits (onlyFlag pre post) ++ bs, .struct vs, ?_, ?_⟩
    · unfold parse parseSlots
      rw [parsers_length, bind_bind, append_assoc,
        bind_of_ok (reads_packBits (onlyFlag_length pre f post) _),
        nullFlags_packBits (onlyFlag_length pre f post), bind_of_ok hvs]
      rfl
    · unfold walkValue
      rw [append_assoc]
      refine Astray.of_ok (reads_packBits (onlyFlag_length pre f post) _) ?_
      refine Astray.of_ok (a := untouched (.struct (pre ++ f :: post))) rfl ?_
      rw [nullFlags_packBits (onlyFlag_length pre f post)]
      refine astray_only pre 0 _ ?_
      rw [Nat.zero_add, child_untouched_struct (f := f) (by simp)]
      exact hwalk
  | list kind item _ ih =>
    have hitem : Holds ZeroWidth item.type := by
      cases h with
      | here leaf _ => cases leaf
      | element hitem => exact hitem
    obtain ⟨bs, v, hpar, hwalk⟩ := ih hitem k
    obtain ⟨s, hbeg, hch⟩ := listBegin_untouched (n := 1) (by decide)
    refine ⟨leBytes 4 1 ++ (packBits (firstFlag 0) ++ bs), .list [v], ?_, ?_⟩
    · rw [append_assoc, append_assoc]
      have hsl := parse_first hpar 0
      show (parseU32 >>= _) _ = _
      rw [bind_of_ok (reads_parseU32 (by decide) _), bind_of_ok hsl]
      rfl
    · rw [append_assoc, append_assoc]
      refine Astray.of_ok (reads_readU32 (n := 1) (by decide) _) ?_
      refine Astray.checked ?_ (astray_first (fixedWidth_of_holds hitem) hbeg (by rwa [hch]))
      rw [length_append, packBits_length, firstFlag_length]
      exact decide_eq_true (Nat.le_add_right _ _)
  | fixedSizeList item size _ ih =>
    obtain ⟨m, rfl, hitem⟩ : ∃ m, size = m + 1 ∧ Holds ZeroWidth item.type := by
      cases h with
      | here leaf _ => cases leaf
      | fixedElement _ hitem => exact ⟨size - 1, by omega, hitem⟩
    obtain ⟨bs, v, hpar, hwalk⟩ := ih hitem k
    refine ⟨packBits (firstFlag m) ++ bs, .list (v :: replicate m .null), ?_, ?_⟩
    · rw [append_assoc]
      exact bind_of_ok (parse_first hpar m)
    · rw [append_assoc]
      exact astray_first (fixedWidth_of_holds hitem) rfl hwalk
  | map key item sorted ht ihk ihv =>
    by_cases hkey : Holds ZeroWidth key.type
    · -- the key itself, with a byte behind it that says the item is null
      obtain ⟨bs, v, hpar, hwalk⟩ := ihk hkey (k + 1)
      have hinp : leBytes 4 1 ++ (bs ++ tail 1) ++ tail k =
          leBytes 4 1 ++ (bs ++ tail (k + 1)) := by
        rw [append_assoc, append_assoc, tail_add, Nat.add_comm 1 k]
      have hcnt : 1 ≤ (bs ++ tail (k + 1)).length := by
        rw [length_append, tail, length_replicate]
        omega
      refine ⟨leBytes 4 1 ++ (bs ++ tail 1), .map [v] [.null], ?_, ?_⟩
      · rw [hinp]
        exact parse_entry hcnt hpar (parse_null_item item.type k)
      · rw [hinp]
        exact astray_map hcnt (astray_entries_key hwalk)
    · obtain ⟨hin, hitem⟩ : inhabited key.type = true ∧ Holds ZeroWidth item.type := by
        cases h with
        | here leaf _ => cases leaf
        | key hk => exact absurd hk hkey
        | item hin hitem => exact ⟨hin, hitem⟩
      obtain ⟨kbs, kv, _, hkpa, hkwalk⟩ := exists_read (supported_map.mp ht).1 hin hkey
      obtain ⟨bs, v, hpar, hwalk⟩ := ihv hitem k
      have hinp : leBytes 4 1 ++ (kbs ++ (packBits (firstFlag 0) ++ bs)) ++ tail k =
          leBytes 4 1 ++ (kbs ++ (packBits (firstFlag 0) ++ (bs ++ tail k))) := by
        simp only [append_assoc]
      have hcnt : 1 ≤ (kbs ++ (packBits (firstFlag 0) ++ (bs ++ tail k))).length := by
        rw [length_append, length_append, packBits_length, firstFlag_length]
        exact Nat.le_add_left_of_le (Nat.le_add_right_of_le (by decide))
      refine ⟨leBytes 4 1 ++ (kbs ++ (packBits (firstFlag 0) ++ bs)), .map [kv] [v], ?_, ?_⟩
      · rw [hinp]
        exact parse_entry hcnt (hkpa _) (parse_first hpar 0)
      · rw [hinp]
        exact astray_map hcnt (astray_entries_item hkwalk hwalk)
  | union mode fields codes _ ih =>
    obtain ⟨code, i, f, hi, hf, hh⟩ : ∃ code i f, childId codes code = some i ∧
        fields[i]? = some f ∧ Holds ZeroWidth f.type := by
      cases h with
      | here leaf _ => cases leaf
      | active hi hf hh => exact ⟨_, _, _, hi, hf, hh⟩
    have hmem := List.mem_of_getElem? hf
    obtain ⟨bs, v, hpar, hwalk⟩ := ih f hmem hh k
    obtain ⟨s, hbeg, hch⟩ := unionBegin_untouched hf
    refine ⟨[code] ++ bs, .union code v, ?_, ?_⟩
    · show (parseByte >>= _) ([code] ++ (bs ++ tail k)) = _
      rw [bind_of_ok (reads_parseByte code _)]
      simp only [hi, parsers_eq_map, getElem?_map, hf, Option.map_some]
      rw [bind_of_ok hpar]
      rfl
    · refine Astray.of_ok (reads_readByte code _) ?_
      simp only [hi]
      refine Astray.of_ok (a := s) (by rw [hbeg]; rfl) ?_
      unfold walkChild
      simp only [walkers_eq_map, getElem?_map, hf, Option.map_some]
      refine Astray.bind (m := k) ?_ fun c j hj => astray_pure hj
      rw [hch]
      exact hwalk

/-! ## Rows -/

/-- The scratch of a decoder without rows is clear. -/
theorem clearPending_fresh (schema : Schema) :
    (BatchDecoder.fresh schema).clearPending = fun _ => 0 := by
  funext path
  show (if _ then 0 else 0) = 0
  rw [ite_self]

/-- A row under every schema with room for a zero-width value that the row codec takes and
the skip pass of an empty decoder does not. -/
theorem exists_refused {schema : Schema} {f : Field} (hmem : f ∈ buildFields schema)
    (ht : f.type.supported = true) (h : Holds ZeroWidth f.type) :
    ∃ buf row, parseRow schema buf = some row ∧
      ∃ e, (BatchDecoder.fresh schema).skipRow buf = .error e ∧
        e.isCapacity = false ∧ e.isBuilder = false := by
  obtain ⟨bs, v, hpar, hwalk⟩ := exists_astray ht h 0
  obtain ⟨pre, post, hspl⟩ := List.append_of_mem hmem
  obtain ⟨row, hrow⟩ := parse_only post hpar pre
  have hlen := onlyFlag_length pre f post
  rw [← hspl] at hrow hlen
  refine ⟨packBits (onlyFlag pre post) ++ (bs ++ tail 0), row, ?_, ?_⟩
  · rw [parseRow_eq_some, ← parsers_buildFields]
    unfold parseSlots
    rw [parsers_length, bind_of_ok (reads_packBits hlen _), nullFlags_packBits hlen]
    exact hrow
  · -- with no tail at all there is nowhere to go astray to
    have hast : Astray ((BatchDecoder.fresh schema).skipRow)
        (packBits (onlyFlag pre post) ++ (bs ++ tail 0)) 0 := by
      unfold BatchDecoder.skipRow walkRow
      rw [clearPending_fresh]
      refine Astray.of_ok (reads_packBits hlen _) ?_
      refine Astray.bind (m := 0) ?_ fun _ j hj => absurd hj (by omega)
      show Astray (walkFields skipSink 0 (walkers skipSink (buildFields schema))
        (nullFlags _ (buildFields schema).length) (untouched (.struct (buildFields schema)))) _ 0
      rw [nullFlags_packBits hlen, hspl]
      refine astray_only pre 0 _ ?_
      rw [Nat.zero_add, child_untouched_struct (f := f) (by simp)]
      exact hwalk
    cases hskip : (BatchDecoder.fresh schema).skipRow
        (packBits (onlyFlag pre post) ++ (bs ++ tail 0)) with
    | error e => exact ⟨e, rfl, hast.error hskip⟩
    | ok p =>
      obtain ⟨j, hj, -⟩ := hast.ok hskip
      omega

/-! ## The decoder and the codec -/

/-- A decoder in any state it can be in accepts a row, if it has room for it and no builder fails,
exactly when `Codec::DecodeRow` does; and its two passes read the same bytes. -/
def AcceptsAlike (A : Api) (K : Compute) (schema : Schema) : Prop :=
  ∀ d, BatchDecoder.Reached A K schema d → ∀ buf,
    ((∀ e, (d.append A buf).1 = .error e → e.isCapacity = false ∧ e.isBuilder = false) →
      ((d.append A buf).1 = .ok () ↔ ∃ row, decodeRow A schema buf = .ok row)) ∧
    ∀ skipped rest, d.skipRow buf = .ok (skipped, rest) →
      (∃ root, d.appendRow A buf = .ok (root, rest)) ∨
        ∃ e, d.appendRow A buf = .error e ∧ e.isBuilder = true

/-- One decoder whose schema has no room for zero-width values. -/
theorem accepts_of_regular {A : Api} (hA : A.Lawful) {d : BatchDecoder} (h : Regular d)
    (buf : Bytes)
    (hroom : ∀ e, (d.append A buf).1 = .error e → e.isCapacity = false ∧ e.isBuilder = false) :
    (d.append A buf).1 = .ok () ↔ ∃ row, decodeRow A d.schema buf = .ok row := by
  cases hrun : d.append A buf with
  | mk answer _ =>
    cases answer with
    | ok u =>
      obtain ⟨row, -, -, hrow, -⟩ := append_eq_ok h hrun
      exact ⟨fun _ => ⟨row, (decodeRow_buildable hA h.buildable).mpr hrow⟩, fun _ => rfl⟩
    | error e =>
      refine ⟨nofun, ?_⟩
      intro hrow
      obtain ⟨row, hrow⟩ := hrow
      rw [decodeRow_buildable hA h.buildable] at hrow
      obtain ⟨hcap, hbld⟩ := hroom e (congrArg Prod.fst hrun)
      rcases append_eq_error h hrun with ⟨hcap' | hnone, -⟩ | hbld'
      · rw [hcap] at hcap'
        cases hcap'
      · rw [hrow] at hnone
        cases hnone
      · rw [hbld] at hbld'
        cases hbld'

/-- **Acceptance.** The decoder and the row codec accept the same rows exactly when no value
of a column's type can hold, not null, a `fixed_size_binary` of width zero. -/
theorem acceptsAlike_iff {A : Api} (hA : A.Lawful) (K : Compute) {schema : Schema}
    {d₀ : BatchDecoder} (hbuild : BatchDecoder.build A schema = .ok d₀)
    (hcodes : ∀ f ∈ schema, codesMatch f.type = true) :
    AcceptsAlike A K schema ↔ ∀ f ∈ schema, ¬Holds ZeroWidth (buildType f.type) := by
  obtain ⟨-, hschema⟩ := build_eq_ok hbuild hcodes
  constructor
  · intro h f hf hholds
    obtain ⟨buf, row, hrow, e, hskip, hother⟩ :=
      exists_refused (List.mem_map_of_mem hf) (hschema f hf).supported hholds
    have hrun : ((BatchDecoder.fresh schema).append A buf).1 = .error e := by
      unfold BatchDecoder.append
      rw [hskip]
    have haccept := (h _ (.refl _ _) buf).1
    rw [hrun] at haccept
    have hok := (haccept fun e' he' => Except.error.inj he' ▸ hother).mpr
      ⟨row, (decodeRow_buildable hA hschema).mpr hrow⟩
    cases hok
  · intro h d hd buf
    have hd' := hd.schema_eq
    have hregular : Regular d := ⟨by rw [hd']; exact hschema, by rw [hd']; exact h⟩
    refine ⟨?_, ?_⟩
    · intro hroom
      rw [← hd']
      exact accepts_of_regular hA hregular buf hroom
    · intro _ _ hskip
      obtain ⟨rfl, row, hrow, -⟩ := skipRow_eq_ok hregular hskip
      rcases appendRow_of_parse (A := A) hregular.buildable (parseRow_eq_some.mp hrow) with
        ⟨root, hroot, -⟩ | hfailed
      · exact .inl ⟨root, hroot⟩
      · exact .inr hfailed

/-- The equivalence at a schema with one column of integers. -/
theorem acceptsAlike_int32 : AcceptsAlike .permissive .plain [⟨"a", .fixed .int32, true⟩] := by
  have hbuild : BatchDecoder.build .permissive [⟨"a", .fixed .int32, true⟩] =
      .ok (.fresh [⟨"a", .fixed .int32, true⟩]) := rfl
  refine (acceptsAlike_iff Api.permissive_lawful .plain hbuild (by decide)).mpr ?_
  intro f hf
  rw [List.mem_singleton] at hf
  subst hf
  exact not_holds_fixed (by decide)

/-- A row with a value of `fixed_size_binary(0)`: the codec decodes it, and a decoder without
rows throws for want of four bytes. -/
theorem zero_width_refused : decodeRow .permissive [⟨"z", .fixed (.fixedSizeBinary 0), true⟩] [0] =
        .ok [.fixed ⟨.fixedSizeBinary 0, [], rfl⟩] ∧
      ((BatchDecoder.fresh [⟨"z", .fixed (.fixedSizeBinary 0), true⟩]).append .permissive [0]).1 =
        .error (.invalidArgument "fletcher: buffer underrun") := by
  refine ⟨?_, ?_⟩
  · rfl
  · rfl

end Fletcher.Bridge.Batch
