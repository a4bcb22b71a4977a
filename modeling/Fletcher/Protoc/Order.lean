import Fletcher.Protoc.Generation

/-!
# The order of the generated classes

A class has its fields by value, so it can only be written after the classes of its fields.
`OrderedMessages` is a depth-first walk along three kinds of edge: to the nested types, to
the messages of fields and map values, and to the owners of enums. Only the last two are
uses of a class. The first is there so that nested messages are found at all, and both things
it does have a gap:

* it is guarded like the other edges. A nested message that uses the message around it finds
  that one in progress, and is listed before it;
* it is not followed from a recursive message, which is dropped with all that is nested in it.

Without the first the order is right; with that out of the way, the list is complete exactly
if every message of the file is found.
-/

namespace Fletcher.Protoc

open Lib Arrow Fletcher.Core List
open FileSet

variable {n : Nat}

namespace FileSet

variable (fs : FileSet n)

/-- `TopologicalVisit` goes from the first message to the second. -/
def Follows (file : String) : Fin n → Fin n → Prop := Dfs.Follows (fs.verdict file) fs.precedes

/-- No use of a nested enum leads back to the message that makes it. -/
def NoEnumOwnerCycle (file : String) : Prop :=
  ∀ m o, fs.verdict file m = .list → o ∈ fs.enumOwners m →
    ¬ Relation.ReflTransGen (fs.Follows file) o m

/-- No nested message leads back to the message it is nested in. -/
def NoEnclosingUse (file : String) : Prop :=
  ∀ m c, fs.verdict file m = .list → c ∈ fs.nestedTypes m →
    ¬ Relation.ReflTransGen (fs.Follows file) c m

/-- The walk gets to the message from a top-level message of its file. -/
def Found (m : Fin n) : Prop :=
  Dfs.Visited (fs.verdict (fs.file m)) fs.precedes (fs.messageTypes (fs.file m)) m

/-- Every message that can have a class is found. -/
def AllFound (file : String) : Prop :=
  ∀ m, fs.file m = file → (fs.pool m).mapEntry = false → fs.pool.isRecursive m = false → fs.Found m

/-- A list of the messages of a file, each once, each after those it uses. -/
structure Sorted (file : String) (order : List (Fin n)) : Prop where
  nodup : order.Nodup
  complete : ∀ m, m ∈ order ↔
    fs.file m = file ∧ (fs.pool m).mapEntry = false ∧ fs.pool.isRecursive m = false
  after : ∀ m ∈ order, ∀ d ∈ fs.dependencies m, fs.file d = file → Before order d m

end FileSet

variable {fs : FileSet n}

theorem verdict_eq_list {file : String} {m : Fin n} : fs.verdict file m = .list ↔
    fs.file m = file ∧ (fs.pool m).mapEntry = false ∧ fs.pool.isRecursive m = false := by
  unfold FileSet.verdict
  by_cases hent : (fs.pool m).mapEntry = true
  · simp [hent]
  · by_cases hfile : fs.file m = file
    · by_cases hrec : fs.pool.isRecursive m = true
      · simp [hent, hfile, hrec]
      · simp [hent, hfile, hrec]
    · simp [hent, hfile]

/-- Neither a field's message nor a map's value is an entry. -/
theorem dependency_not_entry {m d : Fin n} (h : d ∈ fs.dependencies m) :
    (fs.pool d).mapEntry = false := by
  obtain ⟨f, -, hd⟩ := mem_filterMap.mp h
  unfold Pool.descends at hd
  split at hd
  · rename_i c _
    split at hd
    · rename_i hent
      obtain ⟨_, value, hfs, -, hvalue⟩ := fs.entry hent
      rw [hfs] at hd
      have htype : value.messageType? = some d := hd
      rw [Pool.isMap, htype] at hvalue
      exact hvalue
    · rename_i hent
      cases hd
      exact Bool.eq_false_iff.mpr hent
  · cases hd

/-- What a listed message uses of its file can be listed. -/
theorem dependency_listed {file : String} {m d : Fin n} (hm : fs.verdict file m = .list)
    (hd : d ∈ fs.dependencies m) (hfile : fs.file d = file) : fs.verdict file d = .list := by
  refine verdict_eq_list.mpr ⟨hfile, dependency_not_entry hd, ?_⟩
  have hgro := (isRecursive_eq_false_iff fs).mp (verdict_eq_list.mp hm).2.2
  exact (isRecursive_eq_false_iff fs).mpr (hgro.edge hd)

/-- The walk meets no cycle if none goes through an owner and none through a nested type:
fields alone make none among messages that are not recursive. -/
theorem no_cycle {file : String} (henum : fs.NoEnumOwnerCycle file)
    (hnes : fs.NoEnclosingUse file) (m : Fin n) :
    ¬ Relation.TransGen (fs.Follows file) m m := by
  intro hcyc
  have hlst : ∀ {a b}, Relation.TransGen (fs.Follows file) a b → fs.verdict file a = .list := by
    intro a b h
    obtain ⟨c, hac, -⟩ := Relation.TransGen.head'_iff.mp h
    exact hac.1
  have hkinds : fs.Follows file = fun a b => Edge fs.dependencies a b ∧ fs.verdict file a = .list ∨
      fs.verdict file a = .list ∧ (b ∈ fs.nestedTypes a ∨ b ∈ fs.enumOwners a) := by
    funext a b
    simp only [FileSet.Follows, Dfs.Follows, FileSet.precedes, mem_append, Edge, eq_iff_iff]
    tauto
  rw [hkinds] at hcyc
  rcases transGen_or hcyc with hfs | ⟨a, b, hma, hab, hbm⟩
  · have hm : fs.verdict file m = .list := hlst (by rw [hkinds]; exact hcyc)
    have hgro := (isRecursive_eq_false_iff fs).mp (verdict_eq_list.mp hm).2.2
    exact hgro.no_cycle (Relation.TransGen.mono (fun _ _ h => h.1) _ _ hfs)
  · rw [← hkinds] at hma hbm
    have hback : Relation.ReflTransGen (fs.Follows file) b a := hbm.trans hma
    rcases hab.2 with hb | hb
    · exact hnes a b hab.1 hb hback
    · exact henum a b hab.1 hb hback

/-- **Emission order.** Where no nested message leads back to one it is nested in, the messages
of a file are listed in an order that defines each before its use; and all of them are listed
exactly if all of them are found. -/
theorem orderedMessages_sorted_iff (fs : FileSet n) (file : String)
    (henum : fs.NoEnumOwnerCycle file) (hnested : fs.NoEnclosingUse file) :
    (∃ k order, fs.orderedMessages k file = .ok order ∧ fs.Sorted file order) ↔
      fs.AllFound file := by
  constructor
  · intro h m hfile hentry hrec
    obtain ⟨k, order, horder, hsorted⟩ := h
    have hm := (hsorted.complete m).mpr ⟨hfile, hentry, hrec⟩
    have hvisited := (((Dfs.listFrom_spec horder).2.1 m).mp hm).2
    subst hfile
    exact hvisited
  · intro h
    obtain ⟨k, order, horder⟩ := (@orderedMessages_halts n fs file).returns
    obtain ⟨hnodup, hmem, hbefore⟩ := Dfs.listFrom_spec horder
    refine ⟨k, order, horder, hnodup, fun m => ?_, fun m hm d hd hfile => ?_⟩
    · rw [hmem, verdict_eq_list]
      constructor
      · exact fun hm => hm.1
      · intro hm
        obtain rfl := hm.1
        exact ⟨hm, h m rfl hm.2.1 hm.2.2⟩
    · have hlist := ((hmem m).mp hm).1
      have hd' : d ∈ fs.precedes m := mem_append_left _ (mem_append_right _ hd)
      have hdlist := dependency_listed hlist hd hfile
      rcases hbefore m hm d hd' hdlist with hok | hback
      · exact hok
      · exact absurd (hback.head ⟨hlist, hd'⟩) (no_cycle henum hnested m)

/-! ## Two messages of a file -/

theorem nestedPair_noEnumOwnerCycle {outer inner : List (FieldDescriptor 2)} {file : String} :
    (nestedPair outer inner).NoEnumOwnerCycle file := by
  intro m o _ ho
  obtain ⟨f, -, hf⟩ := mem_filterMap.mp ho
  have howner : (nestedPair outer inner).enumOwner f = none := by
    unfold FileSet.enumOwner FileSet.fieldEnumType FileSet.enumEmittable
    split
    · rename_i e he
      have : e.owner = none := by
        split at he
        · split at he
          · split at he
            · split at he
              · cases he
                rfl
              · cases he
            · cases he
          · cases he
        · split at he
          · cases he
            rfl
          · cases he
      rw [this]
      rfl
    · rfl
  rw [howner] at hf
  cases hf

/-- `message Outer { message Inner { int32 x = 1; } Inner inner = 1; }`. -/
theorem orderedMessages_sorted_pair :
    (nestedPair [messageField "inner" 1] [intField "x"]).AllFound "pair.proto" ∧
    ∃ k order, (nestedPair [messageField "inner" 1] [intField "x"]).orderedMessages k "pair.proto" =
      .ok order ∧ (nestedPair [messageField "inner" 1] [intField "x"]).Sorted "pair.proto"
        order := by
  have hfound : (nestedPair [messageField "inner" 1] [intField "x"]).AllFound "pair.proto" := by
    intro m _ _ _
    refine ⟨0, by decide +revert, ?_⟩
    match m with
    | 0 => exact .refl
    | 1 => exact .single ⟨by decide, by decide⟩
  refine ⟨hfound, (orderedMessages_sorted_iff _ _ nestedPair_noEnumOwnerCycle ?_).mpr hfound⟩
  intro m c _ hc hback
  have hedge : ∀ m c, c ∈ (nestedPair [messageField "inner" 1] [intField "x"]).nestedTypes m →
      m = 0 ∧ c = 1 := by decide
  obtain ⟨rfl, rfl⟩ := hedge m c hc
  rcases Relation.ReflTransGen.cases_head hback with h | ⟨d, hd, -⟩
  · cases h
  · have hnone : (nestedPair [messageField "inner" 1] [intField "x"]).precedes 1 = [] := by decide
    have hmem : d ∈ (nestedPair [messageField "inner" 1] [intField "x"]).precedes 1 := hd.2
    rw [hnone] at hmem
    cases hmem

/-- `message Outer { message Inner { Outer outer = 1; } int32 x = 1; }` lists the nested message
first, and `message Outer { Outer outer = 1; message Inner { int32 x = 1; } }` lists nothing. -/
theorem nestedPair_not_sorted :
    (nestedPair [intField "x"] [messageField "outer" 0]).NoEnumOwnerCycle "pair.proto" ∧
    (∀ k order,
      (nestedPair [intField "x"] [messageField "outer" 0]).orderedMessages k "pair.proto" =
      .ok order → order = [1, 0] ∧
        ¬ (nestedPair [intField "x"] [messageField "outer" 0]).Sorted "pair.proto" order) ∧
    (nestedPair [messageField "outer" 0] [intField "x"]).NoEnumOwnerCycle "pair.proto" ∧
    (∀ k order,
      (nestedPair [messageField "outer" 0] [intField "x"]).orderedMessages k "pair.proto" =
      .ok order → order = [] ∧
        ¬ (nestedPair [messageField "outer" 0] [intField "x"]).Sorted "pair.proto" order) := by
  refine ⟨nestedPair_noEnumOwnerCycle, fun k order h => ?_, nestedPair_noEnumOwnerCycle,
    fun k order h => ?_⟩
  · have hlist :
        (nestedPair [intField "x"] [messageField "outer" 0]).orderedMessages 3 "pair.proto" =
        .ok [1, 0] := by rfl
    obtain rfl := eq_of_fuel (fun k => Dfs.listFrom_below k _) h hlist
    refine ⟨rfl, fun hsorted => ?_⟩
    obtain ⟨pre, _, hsplit, hmem⟩ := hsorted.after 1 (by decide) 0 (by decide) rfl
    match pre with
    | [] => cases hmem
    | [a] => cases hsplit
    | [a, b] => cases hsplit
    | a :: b :: c :: rest => cases hsplit
  · have hlist :
        (nestedPair [messageField "outer" 0] [intField "x"]).orderedMessages 3 "pair.proto" =
        .ok [] := by rfl
    obtain rfl := eq_of_fuel (fun k => Dfs.listFrom_below k _) h hlist
    refine ⟨rfl, fun hsorted => ?_⟩
    have hmem := (hsorted.complete 1).mpr ⟨rfl, rfl, by decide⟩
    cases hmem

end Fletcher.Protoc
