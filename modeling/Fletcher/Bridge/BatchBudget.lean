import Fletcher.Bridge.BatchFinish

/-!
# The budget of 32-bit offsets

Before a row is appended the skip pass sums up, for every builder with 32-bit offsets, what
the row would add, and refuses the row when the sum with what is there passes the limit. The
sums are right as far as values go. They leave out what a *null* adds: filling a dense union
puts an element into its first child, and no call of the skip pass says so.

`Charged` holds the two passes together. Along both walks of a row, what a builder has by now
is at most what it had when the row began and what the skip pass has summed up for it; and the
check just made bounds that by the limit. It survives every value and every null but those
that reach a dense union (`noFill`).
-/

namespace Fletcher.Bridge.Batch

open Lib Arrow Reader List BatchDecoder

variable {columns : List (List Value)} {vs : List Value} {codes : List UInt8} {code : UInt8}

variable {b c c' : Builder} {k : Nat} {p : Pending} {f : Field} {o : Buffers} {v : Value}
  {s' : Builder × Pending} {cs : List Builder} {fields : List Field}

/-! ## What is limited -/

/-- Each extent of `c` is at most that of `b` and `more`, and within the limit. -/
def Covers (t : DataType) (b : Builder) (more : Nat) (c : Builder) : Prop :=
  Forall₂ (fun x y => y ≤ x + more ∧ y ≤ kBuilderLimit) (extents t b) (extents t c)

/-- At every depth `c` has at most what `b` has and what is pending, and is within the limit. -/
def Charged (t : DataType) (b : Builder) (p : Pending) (c : Builder) : Prop :=
  ∀ path n, typeAt t path = some n → Covers n (below path b) (p path) (below path c)

/-- The same for the children, which are of these types. -/
def ChargedAll (ts : List DataType) (b : Builder) (p : Pending) (c : Builder) : Prop :=
  ∀ k t, ts[k]? = some t → Charged t (b.child k) (p.child k) (c.child k)

theorem charged_iff {t : DataType} : Charged t b p c ↔
    Covers t b (p []) c ∧ ChargedAll (childTypes t) b p c := forall_typeAt_iff

theorem charged_self {t : DataType} (h : WithinLimits t b) (p : Pending) : Charged t b p b := by
  intro path n hn
  rw [Covers, forall₂_same]
  intro x hx
  exact ⟨Nat.le_add_right x _, h path n hn x hx⟩

theorem Charged.within {t : DataType} (h : Charged t b p c) : WithinLimits t c := by
  intro path n hn y hy
  obtain ⟨k, hk⟩ := mem_iff_getElem?.mp hy
  obtain ⟨x, -, hxy⟩ := forall₂_getElem?_right (h path n hn) hk
  exact hxy.2

/-! ## What a null adds -/

mutual

/-- Filling a builder of the type puts an element into a child of a dense union. -/
def fillsDense : DataType → Bool
  | .struct fields | .union .sparse fields _ => fillsDenseAny fields
  | .fixedSizeList ⟨_, t, _⟩ _ => fillsDense t
  | .union .dense _ _ => true
  | _ => false

def fillsDenseAny : List Field → Bool
  | [] => false
  | ⟨_, t, _⟩ :: fs => fillsDense t || fillsDenseAny fs

end

theorem fillsDenseAny_eq_false : ∀ {fields : List Field},
    fillsDenseAny fields = false ↔ ∀ f ∈ fields, fillsDense f.type = false
  | [] => by simp [fillsDenseAny]
  | ⟨_, t, _⟩ :: fs => by simp [fillsDenseAny, @fillsDenseAny_eq_false fs]

/-- A slot whose null would fill no dense union, or a value that has none inside. -/
def noFillSlot (t : DataType) (noFill : Value → Bool) (v : Value) : Bool :=
  if v.isNull then !fillsDense t else noFill v

/-- No child but the active one would fill a dense union. -/
def othersFillNone (active : Nat) : Nat → List Field → Bool
  | _, [] => true
  | k, f :: fs => (k == active || !fillsDense f.type) && othersFillNone active (k + 1) fs

mutual

/-- No null in the value fills a dense union. -/
def noFill : DataType → Value → Bool
  | .struct fields, .struct vs => (List.zipWith (fun p v => p v) (noFills fields) vs).all id
  | .list _ ⟨_, t, _⟩, .list vs | .fixedSizeList ⟨_, t, _⟩ _, .list vs =>
    vs.all (noFillSlot t (noFill t))
  | .map ⟨_, kt, _⟩ ⟨_, vt, _⟩ _, .map ks vs =>
    ks.all (noFill kt) && vs.all (noFillSlot vt (noFill vt))
  | .union mode fields codes, .union code v =>
    match childId codes code with
    | none => true
    | some k =>
      (mode == .dense || othersFillNone k 0 fields) &&
        match (noFills fields)[k]? with
        | some p => p v
        | none => true
  | _, _ => true

/-- The same for a slot of each field's type. -/
def noFills : List Field → List (Value → Bool)
  | [] => []
  | ⟨_, t, _⟩ :: fs => noFillSlot t (noFill t) :: noFills fs

end

theorem noFills_eq_map : ∀ fields, noFills fields =
    fields.map (fun f => noFillSlot f.type (noFill f.type))
  | [] => rfl
  | ⟨_, t, _⟩ :: fs => by rw [noFills, noFills_eq_map fs]; rfl

/-- No null of the row fills a dense union. -/
def rowNoFill (schema : Schema) (row : Row) : Bool :=
  (List.zipWith (fun p v => p v) (noFills (buildFields schema)) row).all id

/-! ## Filling leaves the limits alone -/

theorem fillChildren_getElem? {target : Option Nat} {ok : Bool} {n : Nat} : ∀ {fields : List Field}
    {cs : List Builder} {j k : Nat} {f : Field} {c : Builder}, fields[k]? = some f →
    cs[k]? = some c → (fillChildren target ok n j (fills fields) cs)[k]? =
      some (fill f.type (if target = some (j + k) then ok else true) n c)
  | ⟨_, _, _⟩ :: _, _ :: _, j, 0, f, c, hf, hc => by
    cases hf
    cases hc
    rfl
  | ⟨_, _, _⟩ :: fs, _ :: cs, j, k + 1, f, c, hf, hc => by
    rw [fills, fillChildren, getElem?_cons_succ,
      fillChildren_getElem? (j := j + 1) (show fs[k]? = some f from hf)
        (show cs[k]? = some c from hc),
      Nat.add_right_comm j 1 k]
    rfl

theorem child_of_getElem?
    (h : cs[k]? = some c) : (Builder.mk o cs).child k = c := getD_of_getElem? h

theorem mem_childTypes_fields {ct : DataType} (h : (fields.map FieldOf.type)[k]? = some ct) :
    ∃ f, fields[k]? = some f ∧ f.type = ct := by
  rwa [getElem?_map, Option.map_eq_some_iff] at h

/-- Children side by side, all filled. -/
theorem charged_fillChildren {o' : Buffers}
    {target : Option Nat} {ok : Bool} {n : Nat}
    (hcols : StoresAll fields cs columns)
    (hfill : ∀ f ∈ fields, ∀ {b p c us} ok n, Stores f.type c us → Charged f.type b p c →
      Charged f.type b p (fill f.type ok n c))
    (h : ChargedAll (fields.map FieldOf.type) b p (.mk o cs)) :
    ChargedAll (fields.map FieldOf.type) b p
      (.mk o' (fillChildren target ok n 0 (fills fields) cs)) := by
  intro k ct hct
  have hchg := h k ct hct
  obtain ⟨f, hf, rfl⟩ := mem_childTypes_fields hct
  obtain ⟨c, _, hc, -, hsto⟩ := storesAll_getElem? hcols hf
  rw [child_of_getElem? hc] at hchg
  rw [child_of_getElem? (fillChildren_getElem? hf hc)]
  exact hfill f (mem_of_getElem? hf) _ n hsto hchg

/-- **Filling** a builder that has no dense union to fill adds to no extent. -/
theorem charged_fill {t : DataType} (ht : t.supported = true) (hden : fillsDense t = false)
    {us : List Value} (ok : Bool) (n : Nat)
    (hsto : Stores t c us) (h : Charged t b p c) : Charged t b p (fill t ok n c) := by
  induction ht using DataType.supported_rec generalizing b p c us ok n with rw [charged_iff] at h ⊢
  | bool | fixed _ =>
    obtain ⟨o, cs⟩ := c
    exact ⟨.nil, nofun⟩
  | var vt =>
    obtain ⟨o, cs⟩ := c
    have hext : extents (.var vt) (fill (.var vt) ok n (.mk o cs)) =
        extents (.var vt) (.mk o cs) := by
      cases vt <;> rfl
    rw [Covers, hext]
    exact ⟨h.1, nofun⟩
  | struct fields _ ih =>
    rw [fillsDense, fillsDenseAny_eq_false] at hden
    obtain ⟨o, cs⟩ := c
    obtain ⟨-, columns, hcols, -, -⟩ := hsto
    exact ⟨.nil, charged_fillChildren hcols (fun f hf => ih f hf (hden f hf)) h.2⟩
  | list kind item _ ih =>
    obtain ⟨o, cs⟩ := c
    refine ⟨?_, h.2⟩
    cases kind with
    | list => exact h.1
    | largeList => exact .nil
  | fixedSizeList item size _ ih =>
    obtain ⟨o, cs⟩ := c
    obtain ⟨-, c, _, rfl, hch, -, -⟩ := hsto
    exact ⟨.nil, forall_getElem?_singleton.mpr
      (ih hden ok (size * n) hch (h.2 0 item.type rfl))⟩
  | map _ item _ _ _ _ =>
    obtain ⟨o, cs⟩ := c
    exact h
  | union mode fields _ ht ih =>
    cases mode with
    | dense => cases hden
    | sparse =>
      rw [fillsDense, fillsDenseAny_eq_false] at hden
      obtain ⟨o, cs⟩ := c
      obtain ⟨-, -, columns, hcols, -, -⟩ := hsto
      exact ⟨.nil, charged_fillChildren hcols (fun f hf => ih f hf (hden f hf)) h.2⟩

/-! ## Both passes side by side -/

/-- The builder holds values, whichever they are. -/
def Stored (t : DataType) (b : Builder) : Prop := ∃ vs, Stores t b vs

theorem stored_fields (h : StoresAll fields cs columns) (hf : fields[k]? = some f) :
    k < cs.length ∧ Stored f.type ((Builder.mk o cs).child k) := by
  obtain ⟨c, column, hc, -, hsto⟩ := storesAll_getElem? h hf
  refine ⟨(List.getElem?_eq_some_iff.mp hc).1, column, ?_⟩
  rw [child_of_getElem? hc]
  exact hsto

/-- The base a row began with, and the builder as it is by now. -/
structure Matched (t : DataType) (b : Builder) (p : Pending) (c : Builder) : Prop where
  base : Stored t b
  stored : Stored t c
  charged : Charged t b p c

/-- A null keeps builders matched that have no dense union to fill. -/
theorem Matched.fill {t : DataType} (h : Matched t b p c) (ht : t.supported = true)
    (hden : fillsDense t = false) (n : Nat) : Matched t b p (fill t false n c) := by
  obtain ⟨us, hus⟩ := h.stored
  exact ⟨h.base, ⟨_, fill_grows ht false n c us hus⟩, charged_fill ht hden false n hus h.charged⟩

/-- The children of two builders are matched, each with its part of what is pending. -/
def MatchedAll (fields : List Field) (b : Builder) (p : Pending) (c : Builder) : Prop :=
  ∀ k f, fields[k]? = some f →
    k < c.children.length ∧ Matched f.type (b.child k) (p.child k) (c.child k)

/-- Played by both passes, the value keeps builders matched, and the base stays as it is. -/
def Charges (t : DataType)
    (skip : Value → Builder × Pending → Except BatchError (Builder × Pending))
    (append : Value → Builder → Except BatchError Builder) (v : Value) : Prop :=
  ∀ b p c s' c', Matched t b p c → skip v (b, p) = .ok s' → append v c = .ok c' →
    s'.1 = b ∧ Matched t b s'.2 c'

section Charges

variable {A : Api} {t : DataType}

/-- The same for every value without a null that fills a dense union. -/
def ReplayCharges (A : Api) (t : DataType) : Prop :=
  ∀ v, HasType t v → v.Encodable → noFill t v = true →
    Charges t (replay skipSink skipLeaf t) (replay (appendSink A) appendLeaf t) v

theorem charges_slot (ht : t.supported = true) (hplay : ReplayCharges A t)
    (hv : SlotOk t v) (hfill : noFillSlot t (noFill t) v = true) :
    Charges t (replaySlot skipSink t (replay skipSink skipLeaf t))
      (replaySlot (appendSink A) t (replay (appendSink A) appendLeaf t)) v := by
  intro b p c s' c' hmat hskip happ
  obtain ⟨hslot, henc⟩ := hv
  unfold replaySlot at hskip happ
  unfold noFillSlot at hfill
  rcases hslot with rfl | hty
  · cases hskip
    obtain rfl := attempt_eq_ok happ
    exact ⟨rfl, hmat.fill ht (by simpa [Value.isNull] using hfill) 1⟩
  · rw [hty.isNull_eq, if_neg (by simp)] at hskip happ hfill
    exact hplay v hty henc hfill b p c s' c' hmat hskip happ

/-- One after the other. -/
theorem charges_fold {skip : Value → Builder × Pending → Except BatchError (Builder × Pending)}
    {append : Value → Builder → Except BatchError Builder} :
    ∀ {vs : List Value} {b : Builder} {p : Pending} {c : Builder} {s' : Builder × Pending}
      {c' : Builder}, (∀ v ∈ vs, Charges t skip append v) → Matched t b p c →
      vs.foldlM (fun s v => skip v s) (b, p) = .ok s' →
      vs.foldlM (fun c v => append v c) c = .ok c' → s'.1 = b ∧ Matched t b s'.2 c'
  | [], b, p, c, s', c', _, hmat, hskip, happ => by
    cases hskip
    cases happ
    exact ⟨rfl, hmat⟩
  | v :: vs, b, p, c, s', c', hvs, hmat, hskip, happ => by
    rw [foldlM_cons] at hskip happ
    obtain ⟨⟨_, _⟩, hskip, hskips⟩ := bind_eq_ok_iff.mp hskip
    obtain ⟨_, happ, happs⟩ := bind_eq_ok_iff.mp happ
    obtain ⟨rfl, hmat⟩ := hvs v mem_cons_self _ _ _ _ _ hmat hskip happ
    exact charges_fold (fun w hw => hvs w (mem_cons_of_mem v hw)) hmat hskips happs

theorem charges_run (ht : t.supported = true) (hplay : ReplayCharges A t)
    (hvs : ∀ v ∈ vs, SlotOk t v) (hfill : vs.all (noFillSlot t (noFill t)) = true)
    (hne : vs.length ≠ 0) (hmat : Matched t b p c)
    (hskip : replayRun skipSink t (replay skipSink skipLeaf t) vs (b, p) = .ok s')
    (happ : replayRun (appendSink A) t (replay (appendSink A) appendLeaf t) vs c = .ok c') :
    s'.1 = b ∧ Matched t b s'.2 c' := by
  unfold replayRun at hskip happ
  rw [all_eq_true] at hfill
  by_cases hnull : vs.all Value.isNull = true
  · rw [if_pos hnull] at hskip happ
    cases hskip
    obtain rfl := attempt_eq_ok happ
    have hden : fillsDense t = false := by
      obtain ⟨v, hv⟩ := exists_mem_of_length_pos (Nat.pos_of_ne_zero hne)
      have hslot := hfill v hv
      rw [noFillSlot, if_pos (all_eq_true.mp hnull v hv)] at hslot
      simpa using hslot
    exact ⟨rfl, hmat.fill ht hden vs.length⟩
  · rw [if_neg hnull] at hskip happ
    exact charges_fold (fun v hv => charges_slot ht hplay (hvs v hv) (hfill v hv)) hmat hskip happ

/-! ### Nodes -/

theorem pending_child_setChild (k : Nat) (q p : Pending) :
    (Pending.setChild k q p).child k = q := by
  funext path
  exact if_pos rfl

theorem pending_child_setChild_ne {j : Nat} (h : j ≠ k) (q p : Pending) :
    (Pending.setChild k q p).child j = p.child j := by
  funext path
  exact if_neg h

theorem child_setChild (h : k < b.children.length) (c : Builder) :
    (Builder.setChild k c b).child k = c := by
  obtain ⟨o, _⟩ := b
  exact child_of_getElem? (getElem?_set_self h)

theorem child_setChild_ne {j : Nat} (h : j ≠ k) (b c : Builder) :
    (Builder.setChild k c b).child j = b.child j := by
  obtain ⟨o, cs⟩ := b
  show (cs.set k c).getD j .empty = cs.getD j .empty
  rw [getD_eq_getElem?_getD, getD_eq_getElem?_getD, getElem?_set_ne h.symm]

/-- One child is played. -/
theorem matchedAll_setChild {q : Pending} (h : MatchedAll fields b p c)
    (hf : fields[k]? = some f) (hmat : Matched f.type (b.child k) q c') :
    MatchedAll fields b (Pending.setChild k q p) (Builder.setChild k c' c) := by
  intro j g hg
  obtain ⟨hj, hold⟩ := h j g hg
  refine ⟨by rwa [setChild_children_length], ?_⟩
  by_cases hjk : j = k
  · subst hjk
    rw [hf, Option.some.injEq] at hg
    subst hg
    rw [pending_child_setChild, child_setChild hj]
    exact hmat
  · rw [pending_child_setChild_ne hjk, child_setChild_ne hjk]
    exact hold

/-- The children of a struct, or the columns of a row. What the node itself has pending does
not change. -/
theorem charges_fields {all : List Field} : ∀ {fields : List Field} {vs : List Value} {k : Nat}
    {b : Builder} {p : Pending} {c : Builder} {s' : Builder × Pending} {c' : Builder},
    (∀ f ∈ fields, f.type.supported = true ∧ ReplayCharges A f.type) → fields = all.drop k →
    Forall₂ (fun f => SlotOk f.type) fields vs →
    (zipWith (fun p v => p v) (noFills fields) vs).all id = true → MatchedAll all b p c →
    replayFields skipSink k (replayers skipSink skipLeaf fields) vs (b, p) = .ok s' →
    replayFields (appendSink A) k (replayers (appendSink A) appendLeaf fields) vs c = .ok c' →
    s'.1 = b ∧ MatchedAll all b s'.2 c'
  | [], [], k, b, p, c, s', c', _, _, _, _, hmat, hskip, happ => by
    cases hskip
    cases happ
    exact ⟨rfl, hmat⟩
  | ⟨name, t, nullable⟩ :: fields, v :: vs, k, b, p, c, s', c', hfs, hdrop, hvs, hfill,
    hmat, hskip, happ => by
    rw [forall₂_cons] at hvs
    rw [noFills, zipWith_cons_cons, all_cons, Bool.and_eq_true] at hfill
    obtain ⟨ht, hplay⟩ := hfs ⟨name, t, nullable⟩ mem_cons_self
    have hf : all[k]? = some ⟨name, t, nullable⟩ := by
      rw [← head?_drop, ← hdrop]
      rfl
    have hrest : fields = all.drop (k + 1) := by
      rw [← tail_drop, ← hdrop]
      rfl
    obtain ⟨⟨_, q⟩, hskip, hskips⟩ := bind_eq_ok_iff.mp hskip
    obtain ⟨_, happ, happs⟩ := bind_eq_ok_iff.mp happ
    obtain ⟨-, hnext⟩ := charges_slot ht hplay hvs.1 hfill.1 _ _ _ _ _ (hmat k _ hf).2 hskip happ
    exact charges_fields (fun f hf => hfs f (mem_cons_of_mem _ hf)) hrest hvs.2 hfill.2
      (matchedAll_setChild hmat hf hnext) hskips happs

theorem budget_eq_ok {text : String} {used count : Nat} {s : Builder × Pending}
    (h : budget text used count s = .ok s') :
    used + (s.2 [] + count) ≤ kBuilderLimit ∧ s' = (s.1, s.2.setOwn (s.2 [] + count)) := by
  unfold budget at h
  split at h
  · cases h
  · next hle =>
    cases h
    exact ⟨Nat.le_of_not_lt hle, rfl⟩

theorem matchedAll_of_charged {columns' : List (List Value)}
    (hb : StoresAll fields b.children columns) (hc : StoresAll fields c.children columns')
    (h : ChargedAll (fields.map FieldOf.type) b p c) : MatchedAll fields b p c := by
  intro k f hf
  obtain ⟨o, _⟩ := b
  obtain ⟨o', _⟩ := c
  obtain ⟨-, hbase⟩ := stored_fields (o := o) hb hf
  obtain ⟨hlt, hsto⟩ := stored_fields (o := o') hc hf
  exact ⟨hlt, hbase, hsto, h k f.type (by rw [getElem?_map, hf]; rfl)⟩

theorem MatchedAll.charged (h : MatchedAll fields b p c) :
    ChargedAll (fields.map FieldOf.type) b p c := by
  intro k ct hct
  obtain ⟨f, hf, rfl⟩ := mem_childTypes_fields hct
  exact (h k f hf).2.charged

theorem charged_iff_of_childless (h : childTypes t = []) :
    Charged t b p c ↔ Covers t b (p []) c := by
  rw [charged_iff, h]
  exact and_iff_left nofun

theorem charges_leaf (hleaf : isLeaf t = true) (hv : HasType t v) :
    Charges t (skipLeaf t) (appendLeaf t) v := by
  intro b p c _ c' hmat hskip happ
  obtain ⟨us, hus⟩ := hmat.stored
  have hsto : Stored t c' := ⟨_, leaf_grows hleaf hv happ us hus⟩
  have hchg := hmat.charged
  cases t with
  | bool | fixed _ =>
    cases hskip
    exact ⟨rfl, hmat.base, hsto, (charged_iff_of_childless rfl).mpr .nil⟩
  | var vt =>
    cases v with
    | binary _ data =>
      obtain ⟨o, _⟩ := c
      cases happ
      rw [charged_iff_of_childless rfl] at hchg
      cases vt with
      | string | binary =>
        -- the bytes of the value are on both sides of the sum
        obtain ⟨hlim, rfl⟩ := budget_eq_ok hskip
        refine ⟨rfl, hmat.base, hsto, (charged_iff_of_childless rfl).mpr ?_⟩
        have hby : o.values.length ≤ b.own.values.length + p [] := (forall₂_cons.mp hchg).1.1
        refine .cons ?_ .nil
        show (o.values ++ data).length ≤ b.own.values.length + (p [] + data.length) ∧
          (o.values ++ data).length ≤ kBuilderLimit
        rw [length_append]
        dsimp only at hlim
        omega
      | _ =>
        cases hskip
        exact ⟨rfl, hmat.base, hsto, (charged_iff_of_childless rfl).mpr .nil⟩
    | _ => cases hv
  | _ => cases hleaf

/-- The elements of a list, behind what its begin left. -/
theorem charges_elements (ht : t.supported = true) (hplay : ReplayCharges A t) {list : DataType}
    (hvs : ∀ v ∈ vs, SlotOk t v)
    (hfill : vs.all (noFillSlot t (noFill t)) = true) {p₁ : Pending} {d : Builder}
    (hski : skipSink.listBegin list vs.length (b, p) = .ok (b, p₁))
    (happ : ∀ d', (appendSink A).listBegin list vs.length d = .ok d' → d' = .mk o [c])
    (hmat : Matched t (b.child 0) (p₁.child 0) c)
    (hskip : replayElements skipSink list t (replay skipSink skipLeaf t) vs (b, p) = .ok s')
    (happe : replayElements (appendSink A) list t (replay (appendSink A) appendLeaf t) vs d =
      .ok c') :
    s'.1 = b ∧ s'.2 [] = p₁ [] ∧ ∃ c₁, c' = .mk o [c₁] ∧ c₁.length = c.length + vs.length ∧
      Matched t (b.child 0) (s'.2.child 0) c₁ := by
  obtain ⟨c₁, rfl, hgr⟩ := elements_grows ht (replay_grows ht) hvs happ happe
  obtain ⟨us, hus⟩ := hmat.stored
  have hleng : c₁.length = c.length + vs.length := by
    rw [stores_length (hgr us hus), stores_length hus, length_append]
  obtain ⟨s, hs, hskip⟩ := bind_eq_ok_iff.mp hskip
  obtain ⟨_, hd, happe⟩ := bind_eq_ok_iff.mp happe
  rw [hski] at hs
  cases hs
  obtain rfl := happ _ hd
  by_cases hlen : vs.length = 0
  · rw [if_pos hlen] at hskip happe
    cases hskip
    cases happe
    exact ⟨rfl, rfl, c, rfl, hleng, hmat⟩
  · rw [if_neg hlen] at hskip happe
    obtain ⟨⟨_, q⟩, hsrun, hs'⟩ := bind_eq_ok_iff.mp hskip
    obtain ⟨_, harun, hc'⟩ := bind_eq_ok_iff.mp happe
    cases hs'
    cases hc'
    obtain ⟨-, hnext⟩ := charges_run ht hplay hvs hfill hlen hmat hsrun harun
    refine ⟨rfl, rfl, c₁, rfl, hleng, ?_⟩
    show Matched t (b.child 0) ((Pending.setChild 0 q p₁).child 0) c₁
    rw [pending_child_setChild]
    exact hnext

/-- The entries of a map, behind what its begin left. -/
theorem charges_entries {kt vt : DataType} (hkt : kt.supported = true) (hvt : vt.supported = true)
    (hplayk : ReplayCharges A kt) (hplayv : ReplayCharges A vt) {ks : List Value}
    (hks : ∀ k ∈ ks, HasType kt k ∧ k.Encodable) (hvs : ∀ v ∈ vs, SlotOk vt v)
    (hkfill : ks.all (noFill kt) = true) (hvfill : vs.all (noFillSlot vt (noFill vt)) = true)
    {d : Builder}
    (hkeys : Matched kt (b.child 0) (p.child 0) c) (hits : Matched vt (b.child 1) (p.child 1) d)
    (hskip : replayEntries skipSink vt (replay skipSink skipLeaf kt) (replay skipSink skipLeaf vt)
      ks vs (b, p) = .ok s')
    (happ : replayEntries (appendSink A) vt (replay (appendSink A) appendLeaf kt)
      (replay (appendSink A) appendLeaf vt) ks vs (.mk o [c, d]) = .ok c') :
    s'.1 = b ∧ s'.2 [] = p [] ∧ ∃ c₁ d₁, c' = .mk o [c₁, d₁] ∧
      c₁.length = c.length + ks.length ∧ d₁.length = d.length + vs.length ∧
      Matched kt (b.child 0) (s'.2.child 0) c₁ ∧ Matched vt (b.child 1) (s'.2.child 1) d₁ := by
  obtain ⟨c₁, d₁, rfl, hkgr, hvgr⟩ :=
    entries_grows hvt (replay_grows hkt) (replay_grows hvt) hks hvs happ
  obtain ⟨us, hus⟩ := hkeys.stored
  obtain ⟨ws, hws⟩ := hits.stored
  have hkle : c₁.length = c.length + ks.length := by
    rw [stores_length (hkgr us hus), stores_length hus, length_append]
  have hvle : d₁.length = d.length + vs.length := by
    rw [stores_length (hvgr ws hws), stores_length hws, length_append]
  obtain ⟨⟨_, q⟩, hskeys, hskip⟩ := bind_eq_ok_iff.mp hskip
  obtain ⟨⟨b₂, r⟩, hsit, hs'⟩ := bind_eq_ok_iff.mp hskip
  obtain ⟨_, hakeys, happ⟩ := bind_eq_ok_iff.mp happ
  obtain ⟨_, hait, hc'⟩ := bind_eq_ok_iff.mp happ
  cases hs'
  cases hc'
  rw [all_eq_true] at hkfill hvfill
  obtain ⟨-, hknext⟩ := charges_fold
    (fun k hk => hplayk k (hks k hk).1 (hks k hk).2 (hkfill k hk)) hkeys hskeys hakeys
  have hsit' : vs.foldlM (fun s v => replaySlot skipSink vt (replay skipSink skipLeaf vt) v s)
      (b.child 1, p.child 1) = .ok (b₂, r) := by
    rw [← hsit]
    show _ = vs.foldlM _ (b.child 1, (Pending.setChild 0 q p).child 1)
    rw [pending_child_setChild_ne (by omega)]
  obtain ⟨-, hvnext⟩ := charges_fold
    (fun v hv => charges_slot hvt hplayv (hvs v hv) (hvfill v hv)) hits hsit' hait
  refine ⟨rfl, rfl, c₁, d₁, rfl, hkle, hvle, ?_, ?_⟩
  · show Matched kt (b.child 0) ((Pending.setChild 1 r (Pending.setChild 0 q p)).child 0) c₁
    rw [pending_child_setChild_ne (by omega), pending_child_setChild]
    exact hknext
  · show Matched vt (b.child 1) ((Pending.setChild 1 r (Pending.setChild 0 q p)).child 1) d₁
    rw [pending_child_setChild]
    exact hvnext

/-- The active child of a union. -/
theorem charges_child (ht : f.type.supported = true)
    (hplay : ReplayCharges A f.type) (hf : fields[k]? = some f) (hv : HasType f.type v)
    (henc : v.Encodable) (hfill : noFillSlot f.type (noFill f.type) v = true)
    (hmat : MatchedAll fields b p c)
    (hskip : replayChild skipSink (replayers skipSink skipLeaf fields) k v (b, p) = .ok s')
    (happ : replayChild (appendSink A) (replayers (appendSink A) appendLeaf fields) k v c =
      .ok c') :
    s'.1 = b ∧ s'.2 [] = p [] ∧ MatchedAll fields b s'.2 c' ∧
      (c'.child k).length = (c.child k).length + 1 ∧ ∀ j, j ≠ k → c'.child j = c.child j := by
  obtain ⟨hlt, hold⟩ := hmat k f hf
  unfold replayChild at hskip happ
  rw [replayers_eq_map, getElem?_map, hf] at hskip happ
  obtain ⟨⟨_, q⟩, hsplay, hs'⟩ := bind_eq_ok_iff.mp hskip
  obtain ⟨c₁, haplay, hc'⟩ := bind_eq_ok_iff.mp happ
  cases hs'
  cases hc'
  have hslot : SlotOk f.type v := ⟨.inr hv, henc⟩
  obtain ⟨-, hnext⟩ := charges_slot ht hplay hslot hfill _ _ _ _ _ hold hsplay haplay
  refine ⟨rfl, rfl, matchedAll_setChild hmat hf hnext, ?_, ?_⟩
  · show ((Builder.setChild k c₁ c).child k).length = _
    rw [child_setChild hlt]
    obtain ⟨us, hus⟩ := hold.stored
    rw [stores_length (slot_grows ht (replay_grows ht) hslot haplay us hus), stores_length hus,
      length_append]
    rfl
  · intro j hj
    exact child_setChild_ne hj c c₁

theorem nullOthers_getElem? {active : Nat} : ∀ {fields : List Field} {cs cs' : List Builder}
    {j k : Nat} {f : Field} {c : Builder}, nullOthers A active j fields cs = .ok cs' →
    fields[k]? = some f → cs[k]? = some c →
    cs'[k]? = some (if j + k = active then c else fill f.type false 1 c)
  | g :: fs, c₀ :: cs, _, j, k, f, c, h, hf, hc => by
    obtain ⟨c₁, hhead, h⟩ := bind_eq_ok_iff.mp h
    obtain ⟨_, htail, h⟩ := bind_eq_ok_iff.mp h
    cases h
    cases k with
    | zero =>
      cases hf
      cases hc
      rw [getElem?_cons_zero, Nat.add_zero]
      by_cases hj : j = active
      · rw [if_pos hj] at hhead ⊢
        cases hhead
        rfl
      · rw [if_neg hj] at hhead ⊢
        rw [attempt_eq_ok hhead]
        rfl
    | succ k =>
      rw [getElem?_cons_succ, nullOthers_getElem? (k := k) htail hf hc, Nat.add_right_comm j 1 k]
      rfl

theorem fillsDense_of_others {active : Nat} : ∀ {fields : List Field} {j k : Nat} {f : Field},
    othersFillNone active j fields = true → fields[k]? = some f → j + k ≠ active →
    fillsDense f.type = false
  | _ :: _, j, 0, f, h, hf, hne => by
    rw [othersFillNone, Bool.and_eq_true, Bool.or_eq_true] at h
    cases hf
    rcases h.1 with heq | hden
    · exact absurd (eq_of_beq heq) hne
    · simpa using hden
  | _ :: fs, j, k + 1, f, h, hf, hne => by
    rw [othersFillNone, Bool.and_eq_true] at h
    have hf' : fs[k]? = some f := hf
    exact fillsDense_of_others h.2 hf' (by omega)

/-- The inactive children of a sparse union take a null each. -/
theorem matchedAll_nullOthers {active : Nat} {o' : Buffers} {cs' : List Builder}
    (ht : ∀ f ∈ fields, f.type.supported = true) (hnull : nullOthers A active 0 fields cs = .ok cs')
    (hoths : othersFillNone active 0 fields = true) (h : MatchedAll fields b p (.mk o cs)) :
    MatchedAll fields b p (.mk o' cs') := by
  intro k f hf
  obtain ⟨hlt, hmat⟩ := h k f hf
  have hc : cs[k]? = some cs[k] := getElem?_eq_getElem hlt
  rw [child_of_getElem? hc] at hmat
  have hnext := nullOthers_getElem? hnull hf hc
  refine ⟨(List.getElem?_eq_some_iff.mp hnext).1, ?_⟩
  rw [child_of_getElem? hnext, Nat.zero_add]
  by_cases hk : k = active
  · rw [if_pos hk]
    exact hmat
  · rw [if_neg hk]
    exact hmat.fill (ht f (mem_of_getElem? hf)) (fillsDense_of_others hoths hf (by omega)) 1

/-- What `noFill` says of a union value. -/
theorem noFill_union {mode : UnionMode}
    (h : noFill (.union mode fields codes) (.union code v) = true)
    (hk : childId codes code = some k) (hf : fields[k]? = some f) :
    (mode = .sparse → othersFillNone k 0 fields = true) ∧
      noFillSlot f.type (noFill f.type) v = true := by
  rw [noFill, hk] at h
  rw [Bool.and_eq_true, Bool.or_eq_true, noFills_eq_map, getElem?_map, hf] at h
  refine ⟨?_, h.2⟩
  rintro rfl
  rcases h.1 with hmode | hoths
  · exact absurd (eq_of_beq hmode) (by decide)
  · exact hoths

/-- At a node only what is charged is left to say. -/
theorem charges_node (ht : t.supported = true) (hv : HasType t v) (henc : v.Encodable)
    (h : ∀ o cs p ob bs us ws s' c', Stores t (.mk o cs) us → Stores t (.mk ob bs) ws →
      Covers t (.mk ob bs) (p []) (.mk o cs) → ChargedAll (childTypes t) (.mk ob bs) p (.mk o cs) →
      replay skipSink skipLeaf t v (.mk ob bs, p) = .ok s' →
      replay (appendSink A) appendLeaf t v (.mk o cs) = .ok c' →
      s'.1 = .mk ob bs ∧ Charged t (.mk ob bs) s'.2 c') :
    Charges t (replay skipSink skipLeaf t) (replay (appendSink A) appendLeaf t) v := by
  intro ⟨ob, bs⟩ p ⟨o, cs⟩ s' c' hmat hskip happ
  obtain ⟨us, hus⟩ := hmat.stored
  obtain ⟨ws, hws⟩ := hmat.base
  have hchg := charged_iff.mp hmat.charged
  obtain ⟨hbase, hnext⟩ := h o cs p ob bs us ws s' c' hus hws hchg.1 hchg.2 hskip happ
  exact ⟨hbase, hmat.base, ⟨_, replay_grows ht _ _ _ hv henc happ us hus⟩, hnext⟩

theorem charges_union {mode : UnionMode} (ht : (DataType.union mode fields codes).supported = true)
    (ih : ∀ f ∈ fields, ReplayCharges A f.type)
    (hty : HasType (.union mode fields codes) (.union code v)) (henc : v.Encodable)
    (hfill : noFill (.union mode fields codes) (.union code v) = true) :
    Charges (.union mode fields codes) (replay skipSink skipLeaf (.union mode fields codes))
      (replay (appendSink A) appendLeaf (.union mode fields codes)) (.union code v) := by
  have hfs := (supported_union.mp ht).2
  obtain ⟨k, f, hk, hf, hv⟩ := hasType_union hty
  have hmem := mem_of_getElem? hf
  obtain ⟨hoths, hslot⟩ := noFill_union hfill hk hf
  refine charges_node ht hty henc ?_
  intro o cs p ob bs us ws s' c' hus hws hroot hch hskip happ
  rw [replay, hk] at hskip happ
  obtain ⟨_, hbeg, happ⟩ := bind_eq_ok_iff.mp happ
  cases mode with
  | sparse =>
    obtain ⟨-, -, _, hcols, -, -⟩ := hus
    obtain ⟨-, -, _, hcols', -, -⟩ := hws
    obtain ⟨_, hnull, rfl⟩ := sparseBegin_eq_ok hbeg
    have hall : MatchedAll fields (.mk ob bs) p (.mk o cs) := matchedAll_of_charged hcols' hcols hch
    obtain ⟨hbase, -, hnext, -, -⟩ := charges_child (hfs f hmem) (ih f hmem) hf hv henc hslot
      (matchedAll_nullOthers hfs hnull (hoths rfl) hall) hskip happ
    exact ⟨hbase, charged_iff.mpr ⟨.nil, hnext.charged⟩⟩
  | dense =>
    obtain ⟨-, -, -, _, hcols, -⟩ := hus
    obtain ⟨-, -, -, _, hcols', -⟩ := hws
    obtain ⟨_, hbud, hskip⟩ := bind_eq_ok_iff.mp hskip
    obtain ⟨hlim, rfl⟩ := budget_eq_ok hbud
    dsimp only at hlim
    obtain rfl := attempt_eq_ok hbeg
    have hall : MatchedAll fields (.mk ob bs) (p.setOwn (p [] + 1))
        ((Builder.mk o cs).appendDense code k) := matchedAll_of_charged hcols' hcols hch
    obtain ⟨hbase, hown, hnext, hlen, hsame⟩ :=
      charges_child (hfs f hmem) (ih f hmem) hf hv henc hslot hall hskip happ
    refine ⟨hbase, charged_iff.mpr ⟨?_, hnext.charged⟩⟩
    -- the active child has one element more, which is counted; the others have what they had
    simp only [Covers, extents, forall₂_map_left_iff, forall₂_map_right_iff,
      forall₂_same] at hroot ⊢
    intro j hj
    have hold := hroot j hj
    rw [hown]
    show (c'.child j).length ≤ _ + (p [] + 1) ∧ _
    by_cases hjk : j = k
    · subst hjk
      have hch : (c'.child j).length = ((Builder.mk o cs).child j).length + 1 := hlen
      omega
    · have hch : c'.child j = (Builder.mk o cs).child j := hsame j hjk
      rw [hch]
      omega

/-- **Both passes agree** on every value without a null that fills a dense union. -/
theorem replay_charges (ht : t.supported = true) : ReplayCharges A t := by
  intro v hv henc hfill
  induction ht using DataType.supported_rec generalizing v with
  | bool | fixed _ | var _ =>
    rw [replay_leaf rfl, replay_leaf rfl]
    exact charges_leaf rfl hv
  | struct fields ht ih =>
    have hfs := fieldsSupported_iff.mp ht
    cases v with
    | struct vs =>
      refine charges_node ht hv henc ?_
      intro o cs p ob bs us ws s' c' hus hws _ hch hskip happ
      obtain ⟨-, _, hcols, -, -⟩ := hus
      obtain ⟨-, _, hcols', -, -⟩ := hws
      have hall : MatchedAll fields (.mk ob bs) p (Builder.mk o cs).appendSlot :=
        matchedAll_of_charged hcols' hcols hch
      obtain ⟨_, hbeg, happ⟩ := bind_eq_ok_iff.mp happ
      obtain rfl := attempt_eq_ok hbeg
      obtain ⟨hbase, hnext⟩ := charges_fields
        (fun f hf => ⟨hfs f hf, ih f hf⟩) drop_zero.symm
        (slotOk_fields hv henc) hfill hall hskip happ
      exact ⟨hbase, charged_iff.mpr ⟨.nil, hnext.charged⟩⟩
    | _ => cases hv
  | list kind item ht ih =>
    cases v with
    | list vs =>
      refine charges_node ht hv henc ?_
      intro o cs p ob bs us ws s' c' hus hws hroot hch hskip happ
      obtain ⟨-, c, _, rfl, hin, -, -⟩ := hus
      obtain ⟨-, d, _, rfl, hin', -, -⟩ := hws
      have hvs := fun v hv' => (⟨hv v hv', Value.allEncodable_iff.mp henc.2 v hv'⟩ : SlotOk _ v)
      have hinn : Matched item.type ((Builder.mk ob [d]).child 0) (p.child 0) c :=
        ⟨⟨_, hin'⟩, ⟨_, hin⟩, hch 0 item.type rfl⟩
      cases kind with
      | list =>
        obtain ⟨s₁, hbud, -⟩ := bind_eq_ok_iff.mp hskip
        obtain ⟨hlim, hs₁⟩ := budget_eq_ok hbud
        rw [hs₁] at hbud
        obtain ⟨hbase, hown, c₁, rfl, _, hnext⟩ := charges_elements ht ih hvs hfill
          hbud (fun _ => listBegin_eq_ok) hinn hskip happ
        refine ⟨hbase, charged_iff.mpr ⟨.cons ?_ .nil,
          forall_getElem?_singleton.mpr hnext.charged⟩⟩
        have hold : c.length ≤ d.length + p [] := (forall₂_cons.mp hroot).1.1
        have hlim' : d.length + (p [] + vs.length) ≤ kBuilderLimit := hlim
        rw [hown]
        show c₁.length ≤ d.length + (p [] + vs.length) ∧ c₁.length ≤ kBuilderLimit
        omega
      | largeList =>
        obtain ⟨hbase, -, c₁, rfl, -, hnext⟩ := charges_elements ht ih hvs hfill
          rfl (fun _ => listBegin_eq_ok) hinn hskip happ
        exact ⟨hbase, charged_iff.mpr ⟨.nil, forall_getElem?_singleton.mpr hnext.charged⟩⟩
    | _ => cases hv
  | fixedSizeList item _ ht ih =>
    cases v with
    | list vs =>
      refine charges_node ht hv henc ?_
      intro o cs p ob bs us ws s' c' hus hws _ hch hskip happ
      obtain ⟨-, c, _, rfl, hin, -, -⟩ := hus
      obtain ⟨-, d, _, rfl, hin', -, -⟩ := hws
      obtain ⟨hbase, -, c₁, rfl, -, hnext⟩ := charges_elements ht ih
        (fun v hv' => ⟨hv.2 v hv', Value.allEncodable_iff.mp henc.2 v hv'⟩) hfill rfl
        (fun _ hbeg => by exact attempt_eq_ok hbeg) (b := .mk ob [d])
        ⟨⟨_, hin'⟩, ⟨_, hin⟩, hch 0 item.type rfl⟩ hskip happ
      exact ⟨hbase, charged_iff.mpr ⟨.nil, forall_getElem?_singleton.mpr hnext.charged⟩⟩
    | _ => cases hv
  | map key item _ ht ihk ihv =>
    obtain ⟨htk, htv⟩ := supported_map.mp ht
    cases v with
    | map ks vs =>
      refine charges_node ht hv henc ?_
      intro o cs p ob bs us ws s' c' hus hws hroot hch hskip happ
      obtain ⟨-, c, d, pieces, rfl, hkeys, hits, -, hprs, -⟩ := hus
      obtain ⟨-, bk, bv, pieces', rfl, hkeys', hits', -, hprs', -⟩ := hws
      obtain ⟨_, hkty, hvty⟩ := hv
      obtain ⟨-, hkn, hkenc, hvenc⟩ := henc
      rw [Value.allEncodable_iff] at hkenc hvenc
      have hks : ∀ k ∈ ks, HasType key.type k ∧ k.Encodable := by
        intro k hmem
        rcases hkty k hmem with rfl | hty
        · exact absurd (hkn _ hmem) (by simp [Value.isNull])
        · exact ⟨hty, hkenc k hmem⟩
      rw [noFill, Bool.and_eq_true] at hfill
      obtain ⟨s₁, hbud, hskip'⟩ := bind_eq_ok_iff.mp hskip
      obtain ⟨hlim, rfl⟩ := budget_eq_ok hbud
      obtain ⟨_, hbeg, happ⟩ := bind_eq_ok_iff.mp happ
      obtain rfl := attempt_eq_ok hbeg
      obtain ⟨hbase, hown, c₁, d₁, rfl, _, _, hknext, hvnext⟩ :=
        charges_entries htk htv ihk ihv hks
          (fun v hmem => ⟨hvty v hmem, hvenc v hmem⟩) hfill.1 hfill.2
          (b := .mk ob [bk, bv]) (p := p.setOwn (p [] + ks.length))
          ⟨⟨_, hkeys'⟩, ⟨_, hkeys⟩, hch 0 key.type rfl⟩
          ⟨⟨_, hits'⟩, ⟨_, hits⟩, hch 1 item.type rfl⟩ hskip' happ
      refine ⟨hbase, charged_iff.mpr ⟨?_, forall_getElem?_pair.mpr
        ⟨hknext.charged, hvnext.charged⟩⟩⟩
      -- the items are what is checked; there are as many keys
      have hcur : c.length = d.length := by
        rw [stores_length hkeys, stores_length hits]
        exact pairs_flatten_length hprs
      have hsta : bk.length = bv.length := by
        rw [stores_length hkeys', stores_length hits']
        exact pairs_flatten_length hprs'
      have hold : c.length ≤ bk.length + p [] := (forall₂_cons.mp hroot).1.1
      have hlim' : bv.length + (p [] + ks.length) ≤ kBuilderLimit := hlim
      have hown' : s'.2 [] = p [] + ks.length := hown
      refine .cons ?_ (.cons ?_ .nil)
      · show c₁.length ≤ bk.length + s'.2 [] ∧ c₁.length ≤ kBuilderLimit
        omega
      · show d₁.length ≤ bv.length + s'.2 [] ∧ d₁.length ≤ kBuilderLimit
        omega
    | _ => cases hv
  | union _ _ _ ht ih =>
    cases v with
    | union _ v => exact charges_union ht ih hv henc hfill
    | _ => cases hv

end Charges

/-! ## Decoders within their limits -/

theorem makeBuilder_child {t ct : DataType} (h : (childTypes t)[k]? = some ct) :
    (makeBuilder t).child k = makeBuilder ct := by
  cases t with
  | struct fields | union mode fields codes =>
    obtain ⟨f, hf, rfl⟩ := mem_childTypes_fields h
    refine child_of_getElem? ?_
    rw [makeBuilders_eq_map, getElem?_map, hf]
    rfl
  | list kind item | fixedSizeList item size =>
    cases k with
    | zero => cases h; rfl
    | succ k => cases h
  | map _ item _ =>
    match k, h with
    | 0, h => cases h; rfl
    | 1, h => cases h; rfl
    | k + 2, h => cases h
  | _ => cases h

theorem below_makeBuilder {t n : DataType} {path : List Nat} (h : typeAt t path = some n) :
    below path (makeBuilder t) = makeBuilder n := by
  induction path generalizing t with
  | nil => cases h; rfl
  | cons k path ih =>
    rw [typeAt, Option.bind_eq_some_iff] at h
    obtain ⟨_, hct, h⟩ := h
    rw [below, makeBuilder_child hct]
    exact ih h

theorem extents_makeBuilder (t : DataType) : ∀ x ∈ extents t (makeBuilder t), x = 0 := by
  cases t with
  | var vt => cases vt <;> simp [extents, makeBuilder]
  | list kind item =>
    cases kind with
    | list =>
      simp [extents, makeBuilder_child (t := .list .list item) (k := 0) rfl, makeBuilder_length]
    | largeList => simp [extents]
  | map key item sorted =>
    simp [extents, makeBuilder_child (t := .map key item sorted) (k := 0) rfl,
      makeBuilder_child (t := .map key item sorted) (k := 1) rfl, makeBuilder_length]
  | union mode fields codes =>
    cases mode with
    | sparse => simp [extents]
    | dense =>
      intro x hx
      obtain ⟨k, hk, rfl⟩ := mem_map.mp hx
      have hct : (childTypes (.union .dense fields codes))[k]? =
          some (fields.get ⟨k, List.mem_range.mp hk⟩).type := by
        simp [childTypes, List.mem_range.mp hk]
      rw [makeBuilder_child hct, makeBuilder_length]
  | _ => simp [extents]

theorem withinLimits_makeBuilder (t : DataType) : WithinLimits t (makeBuilder t) := by
  intro _ n hn x hx
  rw [below_makeBuilder hn] at hx
  rw [extents_makeBuilder n x hx]
  exact Nat.zero_le _

/-- The builders hold values, and no more than their offsets can address. -/
structure InBudget (fields : List Field) (root : Builder) : Prop where
  stored : ∃ columns, StoresAll fields root.children columns
  within : WithinLimits (.struct fields) root

section Runs

variable {A : Api} {K : Compute} {root : Builder} {d d' : BatchDecoder}

/-- A column is emptied. -/
theorem InBudget.reset (h : InBudget fields root) (hf : fields[k]? = some f)
    (ht : f.type.supported = true) :
    InBudget fields (Builder.setChild k (makeBuilder f.type) root) := by
  obtain ⟨_, hcols⟩ := h.stored
  refine ⟨⟨_, storesAll_set hcols hf (stores_makeBuilder ht)⟩, ?_⟩
  have hwth := withinLimits_iff.mp h.within
  refine withinLimits_iff.mpr ⟨nofun, ?_⟩
  intro j ct hct
  by_cases hj : j = k
  · subst hj
    obtain ⟨g, hg, rfl⟩ := mem_childTypes_fields hct
    rw [hf, Option.some.injEq] at hg
    subst hg
    obtain ⟨c, -, hc, -, -⟩ := storesAll_getElem? hcols hf
    rw [child_setChild (List.getElem?_eq_some_iff.mp hc).1]
    exact withinLimits_makeBuilder f.type
  · rw [child_setChild_ne hj]
    exact hwth.2 j ct hct

theorem inBudget_finish (h : Buildable d.schema) (hbud : InBudget d.fields d.root)
    (hcalm : ∀ e, (d.finish A K).1 = .error e → e.isBuilder = false) :
    InBudget d.fields (d.finish A K).2.root := by
  rw [(finish_root d).1]
  refine finishColumns_preserves ?_ hbud fun e he => hcalm e ?_
  · intro i f root hf hroot
    rw [Nat.zero_add]
    exact InBudget.reset hroot (fields_getElem? hf) (h f (mem_of_getElem? hf)).supported
  · unfold BatchDecoder.finish
    split
    all_goals
      next hrun =>
      rw [hrun] at he
      cases he
      try rfl

/-- **A row without a null that fills a dense union** leaves the builders within their
limits when it is accepted. -/
theorem inBudget_append (h : Regular d) (hsizes : ∀ f ∈ d.schema, sizesFit f.type = true)
    {buf : Bytes} (hfill : ∀ row, parseRow d.schema buf = some row → rowNoFill d.schema row = true)
    (hbud : InBudget d.fields d.root) (happ : d.append A buf = (.ok (), d')) :
    InBudget d.fields d'.root := by
  obtain ⟨_, hcols⟩ := hbud.stored
  obtain ⟨_, -, -, -, hsto⟩ := storesAll_append h hsizes hcols happ
  obtain ⟨row, _, root, hrow, hskip, hrep, rfl⟩ := append_eq_ok h happ
  refine ⟨⟨_, hsto⟩, ?_⟩
  have hself := charged_iff.mp (charged_self hbud.within d.clearPending)
  obtain ⟨-, hnext⟩ := charges_fields
    (fun f hf => ⟨(h.fields f hf).1, replay_charges (h.fields f hf).1⟩) drop_zero.symm
    (slotOk_buildFields hsizes hrow) (hfill row hrow)
    (matchedAll_of_charged hcols hcols hself.2) hskip hrep
  exact (charged_iff.mpr ⟨.nil, hnext.charged⟩ : Charged (.struct d.fields) d.root _ root).within

theorem inBudget_fresh {schema : Schema} (h : Buildable schema) :
    InBudget (buildFields schema) (fresh schema).root := by
  refine ⟨⟨_, storesAll_fresh h⟩, ?_⟩
  have hmake := withinLimits_makeBuilder (.struct (buildFields schema))
  exact hmake

/-- No call fails in a builder. -/
def Untroubled (A : Api) (K : Compute) : BatchDecoder → List Call → Prop
  | _, [] => True
  | d, c :: calls => (∀ e, (d.call A K c).1 = .error e → e.isBuilder = false) ∧
    Untroubled A K (d.call A K c).2 calls

/-- After any calls whose rows have no null that fills a dense union. -/
theorem inBudget_after {schema : Schema} (hsch : Buildable schema)
    (hwid : ∀ f ∈ schema, ¬Holds ZeroWidth (buildType f.type))
    (hsizes : ∀ f ∈ schema, sizesFit f.type = true) :
    ∀ {calls : List Call} {d : BatchDecoder}, Untroubled A K d calls →
      (∀ buf row, Call.append buf ∈ calls → parseRow schema buf = some row →
        rowNoFill schema row = true) →
      d.schema = schema → InBudget d.fields d.root →
      (d.after A K calls).schema = schema ∧ InBudget (buildFields schema) (d.after A K calls).root
  | [], d, _, _, hd, hbud => by
    subst hd
    exact ⟨rfl, hbud⟩
  | c :: calls, d, hcalm, hfill, hd, hbud => by
    obtain ⟨hcalm, hcalms⟩ := hcalm
    have hrest := fun buf row hmem => hfill buf row (mem_cons_of_mem c hmem)
    subst hd
    have hreg : Regular d := ⟨hsch, hwid⟩
    cases c with
    | finish =>
      have hkeep := finish_schema A K d
      have hfs : (d.finish A K).2.fields = d.fields := congrArg buildFields hkeep
      refine inBudget_after hsch hwid hsizes (d := (d.finish A K).2) hcalms hrest hkeep ?_
      rw [hfs]
      exact inBudget_finish hsch hbud fun e he => hcalm e (congrArg (Except.map some) he)
    | append buf =>
      have hkeep := append_schema A d buf
      have hfs : (d.append A buf).2.fields = d.fields := congrArg buildFields hkeep
      refine inBudget_after hsch hwid hsizes (d := (d.append A buf).2) hcalms hrest hkeep ?_
      rw [hfs]
      cases hrun : d.append A buf with
      | mk answer _ =>
        cases answer with
        | ok u =>
          exact inBudget_append hreg hsizes (fun row => hfill buf row mem_cons_self) hbud hrun
        | error e =>
          rcases append_eq_error hreg hrun with ⟨-, rfl⟩ | hbld
          · exact hbud
          · have hfail : (d.call A K (.append buf)).1 = .error e := by
              rw [call, hrun]
              rfl
            rw [hcalm e hfail] at hbld
            cases hbld

end Runs

/-- **The budget.** After any calls whose rows have no null that fills a dense union, every
builder is within its limits; and a row that would take one beyond is refused for it, with
no builder touched. -/
theorem batch_within_limits {A : Api} {K : Compute} {schema : Schema} (hA : A.Lawful)
    {d₀ : BatchDecoder} (hbuild : build A schema = .ok d₀)
    (hcodes : ∀ f ∈ schema, codesMatch f.type = true)
    (hsizes : ∀ f ∈ schema, sizesFit f.type = true)
    (hwidth : ∀ f ∈ schema, ¬Holds ZeroWidth (buildType f.type)) {calls : List Call}
    (huntroubled : Untroubled A K d₀ calls)
    (hfill : ∀ buf row, Call.append buf ∈ calls → decodeRow A schema buf = .ok row →
      rowNoFill schema row = true) :
    WithinLimits (.struct (buildFields schema)) (d₀.after A K calls).root ∧
      ∀ buf row root, decodeRow A schema buf = .ok row → rowNoFill schema row = true →
        (d₀.after A K calls).appendRow A buf = .ok (root, []) →
        ¬WithinLimits (.struct (buildFields schema)) root →
        ∃ what d', (d₀.after A K calls).append A buf = (.error (.capacityExceeded what), d') ∧
          d'.root = (d₀.after A K calls).root ∧ d'.rows = (d₀.after A K calls).rows := by
  obtain ⟨rfl, hschema⟩ := build_eq_ok hbuild hcodes
  obtain ⟨hkeep, hbudget⟩ := inBudget_after hschema hwidth hsizes huntroubled
    (fun buf row hmem hrow => hfill buf row hmem ((decodeRow_buildable hA hschema).mpr hrow)) rfl
    (inBudget_fresh hschema)
  refine ⟨hbudget.within, ?_⟩
  generalize (fresh schema).after A K calls = d at hkeep hbudget ⊢
  subst hkeep
  have hregular : Regular d := ⟨hschema, hwidth⟩
  intro buf row root hrow hclean hroot hbeyond
  rw [decodeRow_buildable hA hschema] at hrow
  cases hrun : d.append A buf with
  | mk answer d' =>
    cases answer with
    | ok u =>
      -- an accepted row is within the limits
      have hnext := inBudget_append hregular hsizes
        (fun row' hrow' => by rw [hrow] at hrow'; cases hrow'; exact hclean) hbudget hrun
      have hsame : d'.root = root := by
        unfold append at hrun
        rw [hroot] at hrun
        split at hrun
        · cases hrun
        · cases hrun
          rfl
      exact absurd (hsame ▸ hnext.within) hbeyond
    | error e =>
      -- the append pass succeeds, so that the skip pass has refused the row
      have hskip : d.skipRow buf = .error e ∧ { d with pending := d.clearPending } = d' := by
        unfold append at hrun
        rw [hroot] at hrun
        split at hrun
        · next hskip =>
          cases hrun
          exact ⟨hskip, rfl⟩
        · cases hrun
      obtain ⟨hskip, rfl⟩ := hskip
      rcases skipRow_eq_error hregular hskip with hcapacity | hnone
      · cases e with
        | capacityExceeded what => exact ⟨what, _, rfl, rfl, rfl⟩
        | invalidArgument _ | runtimeError _ | builderFailed _ => cases hcapacity
      · rw [hrow] at hnone
        cases hnone

theorem denseSchema_width : ∀ f ∈ denseSchema, ¬Holds ZeroWidth (buildType f.type) := by
  intro f hf h
  rw [mem_singleton.mp hf] at h
  cases h with
  | here leaf _ => cases leaf
  | @active _ _ _ code k g hk hg h =>
    cases k with
    | zero =>
      cases hg
      exact not_holds_fixed (by decide) h
    | succ k => cases hg

/-- The limits after a row that holds a value. -/
theorem batch_within_limits_dense : WithinLimits (.struct (buildFields denseSchema))
    ((fresh denseSchema).after strictApi .plain [.append [0, 0, 5, 0, 0, 0]]).root := by
  have hbuild : build strictApi denseSchema = .ok (.fresh denseSchema) := rfl
  have huntroubled : Untroubled strictApi .plain (.fresh denseSchema)
      [.append [0, 0, 5, 0, 0, 0]] := by
    refine ⟨fun e he => ?_, trivial⟩
    cases he
  refine (batch_within_limits strictApi_lawful hbuild (by decide) (by decide)
    denseSchema_width huntroubled ?_).1
  intro _ _ hmem hrow
  cases mem_singleton.mp hmem
  have hdecoded : decodeRow strictApi denseSchema [0, 0, 5, 0, 0, 0] =
      .ok [.union 0 (.fixed (FixedValue.ofBytes .int32 [5, 0, 0, 0]))] := rfl
  rw [hdecoded] at hrow
  cases hrow
  rfl

/-- Null rows are accepted without end: after `2 ^ 31 - 1` of them, the child of the union has
one element more than its offsets can address. -/
theorem nullRows_beyond_limit : (∀ n, (((fresh denseSchema).after strictApi .plain
      (List.replicate n nullRow)).append strictApi [1]).1 = .ok ()) ∧
    ¬WithinLimits (.struct (buildFields denseSchema))
      ((fresh denseSchema).after strictApi .plain
        (List.replicate (2 ^ 31 - 1) nullRow)).root := by
  have hfresh : fresh denseSchema =
      ⟨denseSchema, .mk {} [nullsIn 0 {} {}], fun _ => 0, 0⟩ := rfl
  rw [hfresh]
  constructor
  · intro n
    obtain ⟨pending, hafter⟩ := after_nullRows (fun _ => 0) {} {} {} 0 n
    obtain ⟨_, happend⟩ := append_null
      (d := ⟨denseSchema, .mk {} [nullsIn n {} {}], pending, 0 + n⟩) rfl
    rw [hafter, happend]
  · intro hwithin
    obtain ⟨pending, hafter⟩ := after_nullRows (fun _ => 0) {} {} {} 0 (2 ^ 31 - 1)
    rw [hafter] at hwithin
    have hle : 0 + (2 ^ 31 - 1) ≤ kBuilderLimit := hwithin [0] denseType rfl _ mem_cons_self
    exact absurd hle (by decide)

end Fletcher.Bridge.Batch
