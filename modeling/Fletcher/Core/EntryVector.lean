import Fletcher.Core.Attachments

/-!
# The vector behind `Attachments`

`Attachments` and `AttachmentsWireBuilder` carry the published order as a field. The
source carries it in a `std::vector<Entry>`: `Set` and `Find` go to the place
`lower_bound` gives, and `Finish` sorts and then closes up the runs of equal keys inside
the vector, one index writing behind another that reads.

Here is that vector, with nothing known about its order, and what the calls do to it.
Each call is then shown to be the one of `Attachments` on the entries it publishes, so
the order is kept by every history of calls, and both doors leave the same entries.
-/

namespace Fletcher.Core

open Lib List SortedMap

abbrev Entry := Bytes × Bytes

namespace EntryVector

/-- `Set`. The vector stays as it was when this throws. -/
def set (entries : List Entry) (key value : Bytes) : Except Error (List Entry) :=
  if (0 : UInt8) ∈ key then
    .error (.pubSubError ("Attachments: a key may not contain a zero byte (offset " ++
      toString (key.findIdx (· == 0)) ++
      "); a boundary marshalling it as a NUL-terminated string would truncate it " ++
      "there, and two distinct keys would silently become one"))
  else
    let place := SortedMap.place key entries
    match entries[place]? with
    | some e =>
      if e.1 = key then .ok (entries.set place (e.1, value))
      else .ok (entries.insertIdx place (key, value))
    | none => .ok (entries.insertIdx place (key, value))

/-- `Find`. -/
def find (entries : List Entry) (key : Bytes) : Option Bytes :=
  match entries[place key entries]? with
  | some e => if e.1 = key then some e.2 else none
  | none => none

/-- A history of `Set` calls. The ones that throw are part of it. -/
def setCalls (entries : List Entry) : List Entry → List Entry
  | [] => entries
  | call :: calls =>
    match set entries call.1 call.2 with
    | .ok entries' => setCalls entries' calls
    | .error _ => setCalls entries calls

/-! ## The wire builder -/

/-- The builder and the container it fills. -/
structure WireBuilder where
  entries : List Entry
  finished : Bool
  ascending : Bool

namespace WireBuilder

/-- The constructor clears the container, whatever it held. -/
def make (_out : List Entry) : WireBuilder := ⟨[], false, true⟩

/-- `Append`, with what it returns. -/
def append (b : WireBuilder) (key value : Bytes) : Bool × WireBuilder :=
  if b.finished then (false, b)
  else if (0 : UInt8) ∈ key then (false, b)
  else
    let disorder := b.ascending && (match b.entries.getLast? with
      | none => false
      | some last => !decide (last.1 < key))
    (true, ⟨b.entries ++ [(key, value)], false, b.ascending && !disorder⟩)

/-- A decoder's entries, one `Append` each, whatever they return. -/
def appendAll (b : WireBuilder) : List Entry → WireBuilder
  | [] => b
  | e :: es => (b.append e.1 e.2).2.appendAll es

/-- Where the run of equal keys that begins at `run` ends. -/
def runEnd (entries : List Entry) (run : Nat) : Nat :=
  match entries.drop run with
  | [] => run
  | e :: es => run + ((e :: es).takeWhile fun x => x.1 = e.1).length

/-- The loop of `Finish`. `run` reads, `out` writes; an entry that has been moved from is left as
`husk` has it. -/
def compact (husk : Entry → Entry) : Nat → List Entry → Nat → Nat → List Entry × Nat
  | 0, entries, out, _ => (entries, out)
  | fuel + 1, entries, out, run =>
    if run = entries.length then (entries, out)
    else
      let next := runEnd entries run
      let last := next - 1
      let entries :=
        if out = last then entries
        else
          match entries[last]? with
          | some e => (entries.set out e).set last (husk e)
          | none => entries
      compact husk fuel entries (out + 1) next

/-- `Finish`: a stable sort, the loop, and the erasure of what the loop left behind `out`. -/
def finish (husk : Entry → Entry) (b : WireBuilder) : WireBuilder :=
  if b.ascending then { b with finished := true }
  else
    let sorted := b.entries.insertionSort fun x y => x.1 ≤ y.1
    let compacted := compact husk sorted.length sorted 0 0
    ⟨compacted.1.take compacted.2, true, b.ascending⟩

/-- The container after the destructor. -/
def destroy (b : WireBuilder) : List Entry := if b.finished then b.entries else []

end WireBuilder

/-! ## The calls are those of `Attachments` -/

theorem set_eq (a : Attachments) (key value : Bytes) :
    set a.entries key value = (a.set key value).map Attachments.entries := by
  rw [set, Attachments.set]
  by_cases hzero : (0 : UInt8) ∈ key
  · rw [if_pos hzero, dif_pos hzero]
    rfl
  · rw [if_neg hzero, dif_neg hzero]
    show _ = Except.ok (SortedMap.set key value a.entries)
    rw [set_eq_place]
    dsimp only
    cases a.entries[place key a.entries]? with
    | none => rfl
    | some e =>
      dsimp only
      by_cases heq : e.1 = key
      · rw [if_pos heq, if_pos heq, heq]
      · rw [if_neg heq, if_neg heq]

theorem find_eq (a : Attachments) (key : Bytes) : find a.entries key = a.find key := by
  rw [find, Attachments.find, find_eq_place key a.ascending]
  cases a.entries[place key a.entries]? with
  | none => rfl
  | some e =>
    dsimp only
    by_cases heq : e.1 = key
    · rw [if_pos heq, if_pos heq]
    · rw [if_neg heq, if_neg heq]

/-- The calls of a history that do not throw. -/
def accepted (calls : List Entry) : List Entry := calls.filter fun c => decide ((0 : UInt8) ∉ c.1)

/-- A history keeps the published order, and a key is found with the value it was last given. -/
theorem setCalls_spec (calls : List Entry) (a : Attachments) :
    ∃ a' : Attachments, setCalls a.entries calls = a'.entries ∧
      ∀ key, a'.find key = (last key (accepted calls)).or (a.find key) := by
  induction calls generalizing a with
  | nil => exact ⟨a, rfl, fun _ => rfl⟩
  | cons call calls ih =>
    rw [setCalls, set_eq]
    by_cases hzero : (0 : UInt8) ∈ call.1
    · have hskip : accepted (call :: calls) = accepted calls :=
        filter_cons_of_neg (by simpa using hzero)
      rw [Attachments.set, dif_pos hzero, hskip]
      exact ih a
    · have htake : accepted (call :: calls) = call :: accepted calls :=
        filter_cons_of_pos (by simpa using hzero)
      obtain ⟨mid, hset, hmid⟩ := a.set_of_noZero call.2 hzero
      obtain ⟨a', hcalls, hfind⟩ := ih mid
      rw [hset]
      refine ⟨a', hcalls, fun key => ?_⟩
      rw [hfind, Attachments.find, hmid, find_set, htake, last_cons,
        Option.or_assoc]
      by_cases hkey : call.1 = key
      · rw [if_pos hkey, if_pos hkey]
        rfl
      · rw [if_neg hkey, if_neg hkey]
        rfl

/-! ## The loop of `Finish` -/

namespace WireBuilder

/-- One turn writes the last entry of the run at `out`, and nothing from the next run on. -/
theorem write_spec (husk : Entry → Entry) {entries : List Entry} {out last : Nat} {l : Entry}
    (hlast : entries[last]? = some l) (hout : out ≤ last) :
    let written := if out = last then entries else (entries.set out l).set last (husk l)
    written.length = entries.length ∧ written.take (out + 1) = entries.take out ++ [l] ∧
      written.drop (last + 1) = entries.drop (last + 1) := by
  obtain ⟨_, _⟩ := List.getElem?_eq_some_iff.mp hlast
  intro written
  by_cases hsame : out = last
  · have hwr : written = entries := if_pos hsame
    rw [hwr, hsame, take_add_one, hlast]
    exact ⟨rfl, rfl, rfl⟩
  · have hwr : written = (entries.set out l).set last (husk l) := if_neg hsame
    rw [hwr]
    refine ⟨by rw [length_set, length_set], ?_, ?_⟩
    · rw [take_set_of_le (by omega), take_add_one, take_set_of_le (Nat.le_refl _),
        getElem?_set_self (by omega)]
      rfl
    · rw [drop_set_of_lt (by omega), drop_set_of_lt (by omega)]

/-- The loop keeps the last entry of each run of the entries it has not read, behind those it
has written. The induction is on the turns; there are no more of them than entries. -/
theorem compact_spec (husk : Entry → Entry) : ∀ (fuel : Nat) (entries : List Entry) (out run : Nat),
    out ≤ run → run ≤ entries.length → entries.length - run ≤ fuel →
    (compact husk fuel entries out run).1.take (compact husk fuel entries out run).2 =
      entries.take out ++ keepLast (entries.drop run)
  | 0, entries, out, run, _, hrun, hfuel => by
    have hend : entries.length ≤ run := by omega
    rw [drop_of_length_le hend, keepLast, append_nil]
    rfl
  | fuel + 1, entries, out, run, hout, hrun, hfuel => by
    rw [compact]
    by_cases hend : run = entries.length
    · rw [if_pos hend, drop_of_length_le (by omega), keepLast, append_nil]
    · rw [if_neg hend]
      obtain ⟨e, es, hrest⟩ : ∃ e es, entries.drop run = e :: es :=
        exists_cons_of_length_pos (by rw [length_drop]; omega)
      obtain ⟨init, l, hrunOf, hkeep⟩ :=
        keepLast_run (fun x : Entry => decide (x.1 = e.1)) e es (by simp)
      have hnext : runEnd entries run = run + (init.length + 1) := by
        rw [runEnd, hrest]
        dsimp only
        rw [hrunOf, length_append, length_singleton]
      -- The run is `init ++ [l]`, so its last entry is `l` and the next run follows it.
      have hspl : entries.drop run = init ++ [l] ++ (e :: es).dropWhile (fun x => x.1 = e.1) := by
        rw [hrest, ← hrunOf]
        exact takeWhile_append_dropWhile.symm
      have hlast : entries[run + init.length]? = some l := by
        rw [← getElem?_drop, hspl, append_assoc, getElem?_append_right
          (Nat.le_refl _), Nat.sub_self]
        rfl
      have hdrop : entries.drop (run + init.length + 1) =
          (e :: es).dropWhile (fun x => x.1 = e.1) := by
        rw [Nat.add_assoc, ← drop_drop, hspl]
        exact drop_left' (by rw [length_append, length_singleton])
      have hin := (List.getElem?_eq_some_iff.mp hlast).1
      obtain ⟨hlen, htake, hbeh⟩ :=
        write_spec husk hlast (Nat.le_trans hout (Nat.le_add_right run init.length))
      have hprev : runEnd entries run - 1 = run + init.length := by omega
      dsimp only
      rw [hprev, hlast, hnext]
      rw [compact_spec husk fuel _ (out + 1) (run + (init.length + 1)) (by omega)
        (by rw [hlen]; omega) (by rw [hlen]; omega), htake, ← Nat.add_assoc, hbeh,
        hdrop, hrest, hkeep, append_assoc]
      rfl

theorem finish_entries (husk : Entry → Entry) (b : WireBuilder) (h : b.ascending = false) :
    (b.finish husk).entries = build b.entries := by
  rw [finish, h]
  exact compact_spec husk _ _ 0 0 (Nat.le_refl _) (Nat.zero_le _) (Nat.le_refl _)

/-! ## The builder is `AttachmentsWireBuilder` -/

/-- The fields the two have in common. -/
def Is (b : WireBuilder) (w : AttachmentsWireBuilder) : Prop :=
  b.entries = w.entries ∧ b.finished = w.finished ∧ b.ascending = w.ascending

theorem make_is (out : List Entry) : (make out).Is .make := ⟨rfl, rfl, rfl⟩

theorem append_refused (b : WireBuilder) {key : Bytes} (value : Bytes) (h : (0 : UInt8) ∈ key) :
    b.append key value = (false, b) := by
  rw [append, if_pos h]
  exact ite_self _

theorem append_is {b : WireBuilder} {w : AttachmentsWireBuilder} (h : b.Is w) {key : Bytes}
    (value : Bytes) (hfini : w.finished = false) (hkey : (0 : UInt8) ∉ key) :
    ∃ w', w.append key value = some w' ∧ (b.append key value).1 = true ∧
      (b.append key value).2.Is w' := by
  obtain ⟨hents, hfin, hasc⟩ := h
  rw [append, AttachmentsWireBuilder.append, hfin, hfini, if_neg Bool.false_ne_true,
    if_neg Bool.false_ne_true, dif_neg hkey, if_neg hkey]
  refine ⟨_, rfl, rfl, ?_, rfl, ?_⟩
  · show b.entries ++ _ = w.entries ++ _
    rw [hents]
  · show (b.ascending && !(b.ascending && _)) = (w.ascending && _)
    rw [AttachmentsWireBuilder.follows, hasc, hents]
    cases w.ascending with
    | false => rfl
    | true => cases w.entries.getLast? <;> simp

theorem appendAll_is (arrivals : List Entry) : ∀ {b : WireBuilder} {w : AttachmentsWireBuilder},
    b.Is w → w.finished = false → (∀ e ∈ arrivals, (0 : UInt8) ∉ e.1) →
    ∃ w' : AttachmentsWireBuilder, (b.appendAll arrivals).Is w' ∧
      w'.entries = w.entries ++ arrivals := by
  induction arrivals with
  | nil => exact fun {_ w} h _ _ => ⟨w, h, (append_nil _).symm⟩
  | cons e _ ih =>
    intro b w h hfin hkeys
    obtain ⟨_, happ, -, his⟩ := append_is h e.2 hfin (hkeys e mem_cons_self)
    obtain ⟨_, hsome, hents, hopen⟩ :=
      AttachmentsWireBuilder.append_eq_some e.2 hfin (hkeys e mem_cons_self)
    cases happ.symm.trans hsome
    obtain ⟨w', his', hents'⟩ := ih his hopen fun x hx => hkeys x (mem_cons_of_mem e hx)
    refine ⟨w', his', ?_⟩
    rw [hents', hents, append_assoc]
    rfl

theorem finish_destroy (husk : Entry → Entry) {b : WireBuilder} {w : AttachmentsWireBuilder}
    (h : b.Is w) : (b.finish husk).destroy = build w.entries := by
  obtain ⟨hents, -, hasc⟩ := h
  cases hcase : b.ascending with
  | true =>
    rw [finish, if_pos hcase]
    have hsrt := w.sorted (.inr (hasc.symm.trans hcase))
    rw [build_of_ascending hsrt, ← hents]
    rfl
  | false =>
    have hfin : (b.finish husk).finished = true := by
      rw [finish, hcase]
      rfl
    rw [destroy, if_pos hfin, finish_entries husk b hcase, hents]

/-- A builder that is not finished stays so, whatever arrives. -/
theorem appendAll_unfinished (arrivals : List Entry) : ∀ {b : WireBuilder}, b.finished = false →
    (b.appendAll arrivals).finished = false := by
  induction arrivals with
  | nil => exact fun h => h
  | cons e _ ih =>
    intro b h
    refine ih ?_
    rw [append, h]
    by_cases hkey : (0 : UInt8) ∈ e.1
    · rw [if_neg Bool.false_ne_true, if_pos hkey]
      exact h
    · rw [if_neg Bool.false_ne_true, if_neg hkey]

end WireBuilder

/-! ## Both doors -/

/-- Every value of `Attachments` is one of distinct keys. -/
theorem keys_nodup (a : Attachments) : (a.entries.map Prod.fst).Nodup :=
  List.Pairwise.map Prod.fst (fun _ _ => ne_of_lt) a.ascending

/-- Building from what arrived is setting it, entry by entry. -/
theorem setCalls_eq_build {arrivals : List Entry} (h : ∀ e ∈ arrivals, (0 : UInt8) ∉ e.1) :
    setCalls [] arrivals = build arrivals := by
  obtain ⟨a, hents, hfind⟩ := setCalls_spec arrivals .empty
  have hacc : accepted arrivals = arrivals :=
    filter_eq_self.mpr fun e he => decide_eq_true (h e he)
  have hset : setCalls [] arrivals = a.entries := hents
  rw [hset]
  refine ext a.ascending (ascending_build arrivals) fun key => ?_
  have hkey := hfind key
  rw [hacc] at hkey
  rw [find_build]
  exact hkey.trans (Option.or_none ..)

/-- **The vector is kept in the published form by `Set`, and the wire builder gives the same.** -/
theorem both_doors (husk : Entry → Entry) : (∀ calls : List Entry,
      SortedMap.Ascending (setCalls [] calls) ∧ ((setCalls [] calls).map Prod.fst).Nodup ∧
      (∀ e ∈ setCalls [] calls, (0 : UInt8) ∉ e.1) ∧
      ∀ key, find (setCalls [] calls) key = last key (accepted calls)) ∧
    (∀ out arrivals : List Entry, (∀ e ∈ arrivals, (0 : UInt8) ∉ e.1) →
      (((WireBuilder.make out).appendAll arrivals).finish husk).destroy = setCalls [] arrivals) ∧
    (∀ key value : Bytes, (0 : UInt8) ∈ key → (∀ entries, ∃ e, set entries key value = .error e) ∧
      ∀ b : WireBuilder, b.append key value = (false, b)) ∧
    ∀ out arrivals : List Entry, ((WireBuilder.make out).appendAll arrivals).destroy = [] := by
  refine ⟨fun calls => ?_, fun out arrivals hkeys => ?_, fun key value hzero => ⟨?_, ?_⟩,
    fun out arrivals => ?_⟩
  · obtain ⟨a, hentries, hfind⟩ := setCalls_spec calls .empty
    have hsetCalls : setCalls [] calls = a.entries := hentries
    rw [hsetCalls]
    refine ⟨a.ascending, keys_nodup a, a.noZero, fun key => ?_⟩
    rw [find_eq, hfind]
    exact Option.or_none ..
  · obtain ⟨w, his, hentries⟩ :=
      WireBuilder.appendAll_is arrivals (WireBuilder.make_is out) rfl hkeys
    have harrived : w.entries = arrivals := hentries
    rw [WireBuilder.finish_destroy husk his, harrived, setCalls_eq_build hkeys]
  · exact fun entries => ⟨_, if_pos hzero⟩
  · exact fun b => b.append_refused value hzero
  · have hopen := WireBuilder.appendAll_unfinished arrivals (b := WireBuilder.make out) rfl
    rw [WireBuilder.destroy, hopen]
    rfl

/-- Three arrivals out of order, one key twice. -/
theorem both_doors_three :
    (((WireBuilder.make []).appendAll [([2], [7]), ([1], [8]), ([2], [9])]).finish id).destroy =
      [([1], [8]), ([2], [9])] ∧
    setCalls [] [([2], [7]), ([1], [8]), ([2], [9])] = [([1], [8]), ([2], [9])] := by
  have hset : setCalls [] [([2], [7]), ([1], [8]), ([2], [9])] = [([1], [8]), ([2], [9])] := by
    decide +kernel
  refine ⟨?_, hset⟩
  rw [(both_doors id).2.1 [] [([2], [7]), ([1], [8]), ([2], [9])] (by decide), hset]

end EntryVector

end Fletcher.Core
