import Fletcher.FastDds.Declare
import Fletcher.Lib.Transition
import Fletcher.PubSub.InProcess
import Fletcher.Xrce.Writes

/-!
# Do the providers agree on declarations?

Three providers, three ways to remember what a topic was declared with. Each of them is
held against a machine that remembers only that. The in-process and the XRCE provider are
`declared`: the first declaration is taken, with or without a schema, and a later one is
taken if it says the same. The Fast DDS provider is `announced`: it remembers the first
schema, and a declaration without one passes at any time.

The two machines give the same answers to a sequence of declarations exactly when all of
them carry a schema or none does.
-/

namespace Fletcher.PubSub

open Lib Fletcher.Core List

/-! ## The two machines -/

/-- The first declaration stays. -/
def declared (first : Option DeclaredSchema) (incoming : DeclaredSchema) :
    Bool × Option DeclaredSchema :=
  match first with
  | none => (true, some incoming)
  | some d => (decide (incoming = d), some d)

/-- The first schema stays, and its absence is never compared. -/
def announced (first incoming : Option Bytes) : Bool × Option Bytes :=
  match incoming, first with
  | none, _ => (true, first)
  | some ipc, none => (true, some ipc)
  | some ipc, some ipc' => (decide (ipc = ipc'), some ipc')

/-- On declarations that can be compared, the first machine is the shared comparison. -/
theorem declared_some {d incoming : DeclaredSchema} (hd : d.encodable = true)
    (hinc : incoming.encodable = true) :
    declared (some d) incoming = (!incoming.conflictsWith d, some d) := by
  have hiff := DeclaredSchema.conflictsWith_eq_false_iff hinc hd
  show (decide (incoming = d), some d) = _
  cases hcon : incoming.conflictsWith d with
  | true =>
    have hne : incoming ≠ d := by
      intro heq
      rw [hiff.mpr heq] at hcon
      cases hcon
    rw [decide_eq_false hne]
    rfl
  | false =>
    rw [decide_eq_true (hiff.mp hcon)]
    rfl

theorem outputs_declared (d : DeclaredSchema) (ds : List DeclaredSchema) :
    outputs declared (some d) ds = ds.map fun e => decide (e = d) := by
  induction ds with
  | nil => rfl
  | cons e es ih =>
    show decide (e = d) :: outputs declared (some d) es = _
    rw [ih]
    rfl

theorem outputs_announced (ipc : Bytes) (cs : List (Option Bytes)) :
    outputs announced (some ipc) cs = cs.map fun c => c.all fun i => decide (i = ipc) := by
  induction cs with
  | nil => rfl
  | cons c cs ih =>
    cases c with
    | none =>
      show true :: outputs announced (some ipc) cs = _
      rw [ih]
      rfl
    | some i =>
      show decide (i = ipc) :: outputs announced (some ipc) cs = _
      rw [ih]
      rfl

/-- Before the first schema everything passes, so only a sequence without one is answered as
if absence had been declared. -/
theorem outputs_announced_none (cs : List (Option Bytes)) :
    outputs announced none cs = cs.map (fun c => decide (c = none)) ↔ ∀ c ∈ cs, c = none := by
  induction cs with
  | nil => simp
  | cons c cs ih =>
    cases c with
    | none =>
      show true :: outputs announced none cs = true :: _ ↔ _
      rw [List.cons.injEq, forall_mem_cons]
      simpa using ih
    | some ipc =>
      show true :: outputs announced (some ipc) cs = false :: _ ↔ _
      constructor
      · intro h
        cases (List.cons.inj h).1
      · intro h
        cases h (some ipc) mem_cons_self

/-! ## Sequences of declarations -/

section

variable (L : SchemaLib)

/-- The IPC form of a declaration's schema. -/
def SchemaLib.ipc (schema : Option L.Schema) : Option Bytes :=
  schema.bind fun schema => (L.serializeIpc schema).toOption

/-- The schema is absent or has an IPC form. -/
def SchemaLib.Encodable (schema : Option L.Schema) : Prop :=
  ∀ s, schema = some s → ∃ ipc, L.serializeIpc s = .ok ipc

/-- The answers the contract asks for: the first declaration is taken, and then the ones
with the same schema, absence being one. -/
def expected : List (Option L.Schema) → List Bool
  | [] => []
  | first :: rest => true :: rest.map fun schema => decide (L.ipc schema = L.ipc first)

/-- All of the declarations carry a schema, or none does. -/
def Uniform (schemas : List (Option L.Schema)) : Prop :=
  ∀ a ∈ schemas, ∀ b ∈ schemas, a.isSome = b.isSome

variable {L}

theorem SchemaLib.Encodable.encode {schema : Option L.Schema} (h : L.Encodable schema) :
    L.encode schema = ⟨(L.ipc schema).getD [], true⟩ := by
  cases schema with
  | none => rfl
  | some s =>
    obtain ⟨ipc, hipc⟩ := h s rfl
    unfold SchemaLib.encode DeclaredSchema.encode SchemaLib.ipc
    simp [hipc, Except.toOption]

theorem SchemaLib.Encodable.ipc_isSome {schema : Option L.Schema} (h : L.Encodable schema) :
    (L.ipc schema).isSome = schema.isSome := by
  cases schema with
  | none => rfl
  | some s =>
    obtain ⟨ipc, hipc⟩ := h s rfl
    simp [SchemaLib.ipc, hipc, Except.toOption]

theorem SchemaLib.ipc_ne_nil (schema : Option L.Schema) : L.ipc schema ≠ some [] := by
  intro h
  cases schema with
  | none => cases h
  | some s =>
    cases hipc : L.serializeIpc s with
    | error _ => simp [SchemaLib.ipc, hipc, Except.toOption] at h
    | ok ipc =>
      have hnil : ipc = [] := by simpa [SchemaLib.ipc, hipc, Except.toOption] using h
      exact L.serializeIpc_ne_nil s ipc hipc hnil

/-- The declared form tells schemas apart as their IPC forms do: no IPC form is empty, so
absence is a value of its own. -/
theorem SchemaLib.encode_eq_iff {a b : Option L.Schema} (ha : L.Encodable a)
    (hb : L.Encodable b) : L.encode a = L.encode b ↔ L.ipc a = L.ipc b := by
  rw [ha.encode, hb.encode, DeclaredSchema.mk.injEq]
  have hane := L.ipc_ne_nil a
  have hbne := L.ipc_ne_nil b
  cases hia : L.ipc a with
  | none =>
    cases hib : L.ipc b with
    | none => simp
    | some i =>
      rw [hib] at hbne
      have : i ≠ [] := fun h => hbne (by rw [h])
      simp [Ne.symm this]
  | some i =>
    cases hib : L.ipc b with
    | none =>
      rw [hia] at hane
      have : i ≠ [] := fun h => hane (by rw [h])
      simp [this]
    | some j => simp

/-- The first machine answers as the contract asks. -/
theorem outputs_declared_expected {schemas : List (Option L.Schema)}
    (h : ∀ schema ∈ schemas, L.Encodable schema) :
    outputs declared none (schemas.map L.encode) = expected L schemas := by
  cases schemas with
  | nil => rfl
  | cons first rest =>
    show true :: outputs declared (some (L.encode first)) (rest.map L.encode) = true :: _
    rw [outputs_declared, List.map_map]
    congr 1
    refine map_congr_left ?_
    intro schema hsch
    have hiff := SchemaLib.encode_eq_iff (h schema (mem_cons_of_mem _ hsch))
      (h first mem_cons_self)
    exact decide_eq_decide.mpr hiff

/-- The second machine does so exactly on uniform sequences. -/
theorem outputs_announced_expected_iff {schemas : List (Option L.Schema)}
    (h : ∀ schema ∈ schemas, L.Encodable schema) :
    outputs announced none (schemas.map L.ipc) = expected L schemas ↔ Uniform L schemas := by
  cases schemas with
  | nil => exact iff_of_true rfl nofun
  | cons first rest =>
    have hrest : ∀ schema ∈ rest, (L.ipc schema).isSome = schema.isSome :=
      fun schema hsch => (h schema (mem_cons_of_mem _ hsch)).ipc_isSome
    have hfst := (h first mem_cons_self).ipc_isSome
    have huni : Uniform L (first :: rest) ↔ ∀ schema ∈ rest, schema.isSome = first.isSome := by
      constructor
      · intro hu schema hsch
        exact hu schema (mem_cons_of_mem _ hsch) first mem_cons_self
      · intro hu
        have key : ∀ a ∈ first :: rest, a.isSome = first.isSome :=
          forall_mem_cons.mpr ⟨rfl, hu⟩
        intro a ha b hb
        exact (key a ha).trans (key b hb).symm
    rw [huni]
    cases hipc : L.ipc first with
    | none =>
      -- the first one has no schema
      have hnone : first.isSome = false := by rw [← hfst, hipc]; rfl
      have hstep : outputs announced none ((first :: rest).map L.ipc) =
          true :: outputs announced none (rest.map L.ipc) := by
        rw [map_cons, hipc]
        rfl
      have hexp : expected L (first :: rest) =
          true :: (rest.map L.ipc).map fun c => decide (c = none) := by
        rw [List.map_map]
        show true :: _ = _
        rw [hipc]
        rfl
      rw [hstep, hexp, List.cons.injEq, outputs_announced_none, hnone]
      constructor
      · intro hall schema hsch
        rw [← hrest schema hsch, hall.2 _ (mem_map_of_mem hsch)]
        rfl
      · intro hall
        refine ⟨rfl, ?_⟩
        intro c hc
        obtain ⟨schema, hsch, hceq⟩ := mem_map.mp hc
        have hsome := hrest schema hsch
        rw [hall schema hsch, hceq] at hsome
        exact Option.isNone_iff_eq_none.mp (by simpa using hsome)
    | some ipc =>
      have hsome : first.isSome = true := by rw [← hfst, hipc]; rfl
      have hstep : outputs announced none ((first :: rest).map L.ipc) =
          true :: rest.map fun schema => (L.ipc schema).all fun i => decide (i = ipc) := by
        rw [map_cons, hipc]
        show true :: outputs announced (some ipc) (rest.map L.ipc) = _
        rw [outputs_announced, List.map_map]
        rfl
      rw [hstep, hsome]
      show true :: _ = true :: _ ↔ _
      rw [List.cons.injEq, hipc]
      constructor
      · intro hall schema hsch
        have hsame := map_inj_left.mp hall.2 schema hsch
        rw [← hrest schema hsch]
        cases hi : L.ipc schema with
        | none =>
          rw [hi] at hsame
          cases hsame
        | some i => rfl
      · intro hall
        refine ⟨rfl, map_congr_left ?_⟩
        intro schema hsch
        have hs := hrest schema hsch
        rw [hall schema hsch] at hs
        cases hi : L.ipc schema with
        | none =>
          rw [hi] at hs
          cases hs
        | some i => simp

/-! ## The providers -/

/-- A provider's `CreateTopic` as a machine that answers whether it returned. -/
def accepts {σ : Type} (call : Option L.Schema → Act σ PubSubError Unit) (s : σ)
    (schema : Option L.Schema) : Bool × σ :=
  ((call schema s).1.isOk, (call schema s).2)

/-- A call that returned, or one that threw. -/
theorem accepts_of_eq {σ : Type} {call : Option L.Schema → Act σ PubSubError Unit} {s s' : σ}
    {schema : Option L.Schema} {r : Except PubSubError Unit} (h : call schema s = (r, s')) :
    accepts call s schema = (r.isOk, s') := by
  unfold accepts
  rw [h]

/-- No call of the sequence fails in the transport. -/
def Calm {σ : Type} (call : Option L.Schema → Act σ PubSubError Unit) :
    σ → List (Option L.Schema) → Prop
  | _, [] => True
  | s, schema :: rest => (∀ text, (call schema s).1 ≠ .error ⟨.transportFailure, text⟩) ∧
    Calm call (call schema s).2 rest

section InProcess

variable {Callback : Type} {segments : List Bytes} {key : Bytes}

/-- The in-process provider remembers the declaration. -/
structure InProcess.Remembers (key : Bytes) (s : InProcess.Impl L Callback)
    (first : Option DeclaredSchema) : Prop where
  carriage : s.carriage = .asDeclared
  declared : (s.topic key).declared = first
  encodable : ∀ d, first = some d → d.encodable = true

theorem InProcess.accepts_declared (hkey : joinSegments segments = .ok key)
    {s : InProcess.Impl L Callback} {first : Option DeclaredSchema}
    (h : InProcess.Remembers key s first) {schema : Option L.Schema} (hs : L.Encodable schema) :
    (accepts (InProcess.Impl.createTopic false segments) s schema).1 =
        (PubSub.declared first (L.encode schema)).1 ∧
      InProcess.Remembers key (accepts (InProcess.Impl.createTopic false segments) s schema).2
        (PubSub.declared first (L.encode schema)).2 := by
  have hdoor : InProcess.Impl.createTopic false segments schema s =
      InProcess.Impl.declareTopic key schema (L.encode schema) s := by
    have hname : topicName segments = .ok key := topicName_ok_iff.mpr hkey
    have hreq : s.requireSchema schema key = .ok () := by
      unfold InProcess.Impl.requireSchema
      rw [h.carriage, if_neg (fun hc => nomatch hc.1)]
    unfold InProcess.Impl.createTopic
    rw [hname]
    show (Act.lift (s.requireSchema schema key) >>= fun _ =>
      InProcess.Impl.declareTopic key schema (L.encode schema)) s = _
    rw [hreq]
    rfl
  have henc : (L.encode schema).encodable = true := by rw [hs.encode]
  cases first with
  | none =>
    have hrun : InProcess.Impl.createTopic false segments schema s = (.ok (),
        s.setTopic key { s.topic key with declared := some (L.encode schema), schema }) := by
      rw [hdoor]
      unfold InProcess.Impl.declareTopic
      rw [Act.get_bind]
      dsimp only
      rw [h.declared, h.carriage]
      rfl
    rw [accepts_of_eq hrun]
    refine ⟨rfl, h.carriage, ?_, ?_⟩
    · show ((Function.update s.topics key _ key).getD {}).declared = _
      rw [Function.update_self]
      rfl
    · intro d hd
      cases hd
      exact henc
  | some d =>
    have hagain : ∃ r, InProcess.Impl.createTopic false segments schema s = (r, s) ∧
        r.isOk = !(L.encode schema).conflictsWith d := by
      rw [hdoor]
      unfold InProcess.Impl.declareTopic
      rw [Act.get_bind, h.declared]
      show ∃ r, (if (L.encode schema).conflictsWith d = true then Act.throw _ else pure ()) s = _ ∧
        _
      cases (L.encode schema).conflictsWith d with
      | true => exact ⟨_, rfl, rfl⟩
      | false => exact ⟨_, rfl, rfl⟩
    obtain ⟨r, hrun, hr⟩ := hagain
    rw [accepts_of_eq hrun, declared_some (h.encodable d rfl) henc]
    exact ⟨hr, h⟩

end InProcess

end

section Xrce

variable {C : Xrce.Codec} {Callback : Type} {agent : Xrce.Agent} {maxPayloadBytes : Nat}
  {segments : List Bytes} {name : Bytes}

/-- The options of a plain `CreateTopic`. -/
def noOptions : TopicOptions := ⟨"", 0⟩

/-- The XRCE provider remembers the declaration. -/
structure XrceRemembers (name : Bytes) (s : Xrce.Impl C.Schema Callback)
    (first : Option DeclaredSchema) : Prop where
  undeclared : first = none → (s.topic name).isPublisher = false
  declared : ∀ d, first = some d →
    (s.topic name).isPublisher = true ∧ (s.topic name).declared = d ∧ d.encodable = true

theorem xrce_accepts_declared (hag : agent.Confirms) (hbnd : isPayloadBound maxPayloadBytes = true)
    (hname : joinSegments segments = .ok name) {s : Xrce.Impl C.Schema Callback}
    {first : Option DeclaredSchema} (h : XrceRemembers name s first)
    {schema : Option C.Schema} (hs : C.toSchemaLib.Encodable schema) :
    let call := fun schema => Xrce.Impl.createTopicWithOptions agent maxPayloadBytes false segments
      schema noOptions
    (accepts call s schema).1 = (declared first (C.toSchemaLib.encode schema)).1 ∧
      XrceRemembers name (accepts call s schema).2
        (declared first (C.toSchemaLib.encode schema)).2 := by
  intro call
  have hdoor : call schema s = Xrce.Impl.onTopicState name
      (Xrce.TopicAct.declareTopic agent maxPayloadBytes name schema noOptions maxPayloadBytes
        (C.toSchemaLib.encode schema)) s := by
    have htop : topicName segments = .ok name := topicName_ok_iff.mpr hname
    have hreq : Xrce.Impl.requireBound (Xrce.Impl.boundOf maxPayloadBytes noOptions) = .ok () := by
      show Xrce.Impl.requireBound maxPayloadBytes = .ok ()
      unfold Xrce.Impl.requireBound
      rw [hbnd]
      rfl
    show Xrce.Impl.createTopicWithOptions agent maxPayloadBytes false segments schema noOptions s
      = _
    unfold Xrce.Impl.createTopicWithOptions
    rw [htop, hreq]
    rfl
  have henc : (C.toSchemaLib.encode schema).encodable = true := by rw [hs.encode]
  unfold accepts
  rw [hdoor]
  cases first with
  | none =>
    have hable : ¬Xrce.Unable agent schema noOptions := by
      intro huna
      rcases huna with h | h | ⟨schema, _, h, htext⟩
      · exact h hag
      · exact h rfl
      · obtain ⟨_, hipc⟩ := hs schema h
        rw [hipc] at htext
        cases htext
    obtain ⟨x, hrun, hx⟩ := Xrce.declareTopic_first hable _ _
      (show (s.on name).1.isPublisher = false from h.undeclared rfl)
    rw [Xrce.onTopicState_of_run hrun]
    refine ⟨rfl, nofun, ?_⟩
    intro d hd
    cases hd
    rw [(Xrce.sets_update x.1 x.2).topic, Function.update_self]
    exact ⟨hx.isPublisher, hx.declared (h.undeclared rfl), henc⟩
  | some d =>
    obtain ⟨hpub, hdec, hd⟩ := h.declared d rfl
    rw [declared_some hd henc]
    have hagain : ∃ r, Xrce.TopicAct.declareTopic agent maxPayloadBytes name schema noOptions
        maxPayloadBytes (C.toSchemaLib.encode schema) (s.on name) = (r, s.on name) ∧
        r.isOk = !(C.toSchemaLib.encode schema).conflictsWith (s.topic name).declared :=
      Xrce.declareTopic_again rfl _ _ hpub
    obtain ⟨r, hrun, hr⟩ := hagain
    rw [Xrce.onTopicState_of_run hrun]
    refine ⟨by rw [hr, hdec], nofun, ?_⟩
    intro _ hd'
    cases hd'
    rw [(Xrce.sets_update (s.on name).1 (s.on name).2).topic, Function.update_self]
    exact ⟨hpub, hdec, hd⟩

end Xrce

section FastDds

open FastDds.Declare

variable {L : SchemaLib} {dds : Dds} {maxPayloadBytes : Nat} {segments : List Bytes}
  {name : Bytes}

theorem fastDds_accepts_announced (hbnd : isPayloadBound maxPayloadBytes = true)
    (hname : joinSegments segments = .ok name) {s : FastDds.Declare.Impl} {first : Option Bytes}
    (h : Announced first (s.topic name)) {schema : Option L.Schema} (hs : L.Encodable schema)
    (hcalm : ∀ text, (FastDds.Declare.Impl.createTopicWithOptions L dds maxPayloadBytes false
      segments schema noOptions s).1 ≠ .error ⟨.transportFailure, text⟩) :
    let call := fun schema => FastDds.Declare.Impl.createTopicWithOptions L dds maxPayloadBytes
      false segments schema noOptions
    (accepts call s schema).1 = (announced first (L.ipc schema)).1 ∧
      Announced (announced first (L.ipc schema)).2 ((accepts call s schema).2.topic name) := by
  intro call
  have hreq : Impl.requireBound (Impl.boundOf maxPayloadBytes noOptions) = .ok () := by
    show Impl.requireBound maxPayloadBytes = .ok ()
    unfold Impl.requireBound
    rw [hbnd]
    rfl
  have hadmitted : Admitted maxPayloadBytes name false segments noOptions := ⟨rfl, hname, hreq⟩
  have hdoor := createTopic_admitted dds maxPayloadBytes hadmitted schema s
  have hends := declareTopic_ends L dds name schema noOptions maxPayloadBytes
    (s.topic name, s.participant)
  cases hrun : TopicAct.declareTopic L dds name schema noOptions maxPayloadBytes
    (s.topic name, s.participant) with
  | mk r y =>
    have hcall := hdoor.trans (Impl.onTopicState_self hrun)
    rw [hcall] at hcalm
    unfold accepts
    rw [show call schema s = _ from hcall, Impl.topic_update, Function.update_self]
    rw [hrun] at hends
    cases r with
    | ok _ =>
      obtain ⟨z, hz, hsch⟩ := hends
      have hkept := h.same hz
      rcases hsch with ⟨rfl, rfl⟩ | ⟨schema, ipc, rfl, hipc, hann⟩
      · exact ⟨rfl, hkept⟩
      · rw [show L.ipc (some schema) = some ipc by simp [SchemaLib.ipc, hipc, Except.toOption]]
        cases hann with
        | again writer ipc_eq same =>
          cases first with
          | none => exact nomatch hkept.schemaWriter.symm.trans writer
          | some ipc' =>
            have hsame := ipc_eq.trans (hkept.schemaIpc _ rfl)
            exact ⟨(decide_eq_true hsame).symm, ⟨same.subscribed.trans hkept.free,
              same.published ▸ hkept.schemaWriter, same.published ▸ hkept.schemaIpc⟩⟩
        | first unset _ left =>
          cases first with
          | none =>
            refine ⟨rfl, left.subscribed.trans hkept.free, by rw [left.published]; rfl, ?_⟩
            intro ipc' hsome
            cases hsome
            rw [left.published]
          | some ipc' => exact nomatch hkept.schemaWriter.symm.trans unset
    | error e =>
      have hstatus : e.status ≠ .transportFailure := by
        intro hfailed
        exact hcalm e.what (by rw [← hfailed])
      cases hends with
      | early _ blocked _ =>
        cases blocked with
        | failed failed => exact absurd failed.status hstatus
        | held subscribed => exact nomatch h.free.symm.trans subscribed
        | conflict _ conflict => cases conflict
        | profile missing => exact absurd (if_pos (Or.inl rfl)) missing
      | late z _ left same reason =>
        obtain ⟨schema, rfl, hreason⟩ := reason
        obtain ⟨ipc, hipc⟩ := hs schema rfl
        have hkept := h.same left
        rw [show L.ipc (some schema) = some ipc by simp [SchemaLib.ipc, hipc, Except.toOption]]
        cases hreason ipc hipc with
        | failed failed => exact absurd failed.status hstatus
        | tooLong status _ => exact absurd status hstatus
        | conflict writer differs =>
          cases first with
          | none => exact nomatch hkept.schemaWriter.symm.trans writer
          | some ipc' =>
            rw [hkept.schemaIpc _ rfl] at differs
            exact ⟨(decide_eq_false differs).symm, same.subscribed.trans hkept.free,
              same.published ▸ hkept.schemaWriter, same.published ▸ hkept.schemaIpc⟩

theorem fastDds_outputs (hbnd : isPayloadBound maxPayloadBytes = true)
    (hname : joinSegments segments = .ok name) (schemas : List (Option L.Schema)) :
    ∀ {s : FastDds.Declare.Impl} {first : Option Bytes}, Announced first (s.topic name) →
      (∀ schema ∈ schemas, L.Encodable schema) →
      Calm (fun schema => FastDds.Declare.Impl.createTopicWithOptions L dds maxPayloadBytes false
        segments schema noOptions) s schemas →
      outputs (accepts fun schema => FastDds.Declare.Impl.createTopicWithOptions L dds
        maxPayloadBytes false segments schema noOptions) s schemas =
          outputs announced first (schemas.map L.ipc) := by
  induction schemas with
  | nil => exact fun _ _ _ => rfl
  | cons schema rest ih =>
    intro s first h hschemas hcalm
    obtain ⟨hschema, hrest⟩ := forall_mem_cons.mp hschemas
    obtain ⟨hanswer, hnext⟩ := fastDds_accepts_announced hbnd hname h hschema hcalm.1
    exact congrArg₂ List.cons hanswer (ih hnext hrest hcalm.2)

end FastDds

/-! ## Agreement -/

/-- **Declarations.** Without transport failures and with schemas that can be encoded, the
three providers answer a sequence of declarations of one topic as the contract asks exactly
when all of them carry a schema or none does. -/
theorem providers_agree_iff {C : Xrce.Codec} {Callback : Type} {agent : Xrce.Agent}
    {dds : FastDds.Declare.Dds} {xrceBound fastDdsBound : Nat} {segments : List Bytes}
    {name : Bytes} (hagent : agent.Confirms)
    (hxrce : isPayloadBound xrceBound = true) (hfastDds : isPayloadBound fastDdsBound = true)
    (hname : joinSegments segments = .ok name) (schemas : List (Option C.Schema))
    (hschemas : ∀ schema ∈ schemas, C.toSchemaLib.Encodable schema)
    (hdds : Calm (fun schema => FastDds.Declare.Impl.createTopicWithOptions C.toSchemaLib dds
      fastDdsBound false segments schema noOptions) {} schemas) :
    (outputs (accepts (InProcess.Impl.createTopic false segments))
        ({ carriage := .asDeclared } : InProcess.Impl C.toSchemaLib Callback) schemas =
          expected C.toSchemaLib schemas ∧
      outputs (accepts fun schema => Xrce.Impl.createTopicWithOptions agent xrceBound false
        segments schema noOptions) ({} : Xrce.Impl C.Schema Callback) schemas =
          expected C.toSchemaLib schemas ∧
      outputs (accepts fun schema => FastDds.Declare.Impl.createTopicWithOptions C.toSchemaLib dds
        fastDdsBound false segments schema noOptions) {} schemas = expected C.toSchemaLib schemas) ↔
      Uniform C.toSchemaLib schemas := by
  have hinProcess : outputs (accepts (InProcess.Impl.createTopic false segments))
      ({ carriage := .asDeclared } : InProcess.Impl C.toSchemaLib Callback) schemas =
        expected C.toSchemaLib schemas := by
    rw [← outputs_declared_expected hschemas]
    refine outputs_eq_of_simulates (R := InProcess.Remembers name) ?_ ⟨rfl, rfl, nofun⟩
    intro s first h schema hschema
    exact InProcess.accepts_declared hname h (hschemas schema hschema)
  have hxrceSame : outputs (accepts fun schema => Xrce.Impl.createTopicWithOptions agent xrceBound
      false segments schema noOptions) ({} : Xrce.Impl C.Schema Callback) schemas =
        expected C.toSchemaLib schemas := by
    rw [← outputs_declared_expected hschemas]
    refine outputs_eq_of_simulates (R := XrceRemembers name) ?_ ⟨fun _ => rfl, nofun⟩
    intro s first h schema hschema
    exact xrce_accepts_declared hagent hxrce hname h (hschemas schema hschema)
  have hfastDdsSame : outputs (accepts fun schema => FastDds.Declare.Impl.createTopicWithOptions
      C.toSchemaLib dds fastDdsBound false segments schema noOptions) {} schemas =
        outputs announced none (schemas.map C.toSchemaLib.ipc) :=
    fastDds_outputs hfastDds hname schemas ⟨rfl, rfl, nofun⟩ hschemas hdds
  rw [hfastDdsSame, ← outputs_announced_expected_iff hschemas]
  exact ⟨fun h => h.2.2, fun h => ⟨hinProcess, hxrceSame, h⟩⟩

/-! ## One topic -/

/-- Fast DDS when nothing fails. -/
def working : FastDds.Declare.Dds := { FastDds.Declare.failingAt 0 with succeeds := fun _ => true }

theorem providers_agree_twice :
    outputs (accepts fun schema => FastDds.Declare.Impl.createTopicWithOptions
      Xrce.oneSchema.toSchemaLib working 65536 false [[97]] schema noOptions) {}
        [some (), some ()] = [true, true] := by
  have huniform : Uniform Xrce.oneSchema.toSchemaLib [some (), some ()] := by
    intro a ha b hb
    simp at ha hb
    rw [ha, hb]
  have hcalm : Calm (fun schema => FastDds.Declare.Impl.createTopicWithOptions
      Xrce.oneSchema.toSchemaLib working 65536 false [[97]] schema noOptions) {}
        [some (), some ()] := by
    refine ⟨?_, ?_, trivial⟩
    all_goals
      intro text h
      cases congrArg Except.isOk h
  have hagree := (@providers_agree_iff Xrce.oneSchema Unit Xrce.willing working 65536 65536
    [[97]] [97] Xrce.willing_confirms (by decide) (by decide) (by decide)
    [some (), some ()] (fun _ _ _ _ => ⟨[1], rfl⟩) hcalm).mpr huniform
  exact hagree.2.2

/-- Declared with a schema and then without one: the in-process and the XRCE provider refuse
the second declaration, Fast DDS takes it. -/
theorem absence_not_compared : outputs (accepts (InProcess.Impl.createTopic false [[97]]))
      ({ carriage := .asDeclared } : InProcess.Impl Xrce.oneSchema.toSchemaLib Unit)
        [some (), none] = [true, false] ∧
    outputs (accepts (L := Xrce.oneSchema.toSchemaLib) fun schema =>
      Xrce.Impl.createTopicWithOptions (C := Xrce.oneSchema) Xrce.willing 65536 false [[97]]
        schema noOptions) ({} : Xrce.Impl Unit Unit) [some (), none] = [true, false] ∧
    outputs (accepts fun schema => FastDds.Declare.Impl.createTopicWithOptions
      Xrce.oneSchema.toSchemaLib working 65536 false [[97]] schema noOptions) {}
        [some (), none] = [true, true] := by
  decide +kernel

end Fletcher.PubSub
