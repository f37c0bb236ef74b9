import WireSchema.Proofs.Generation.Termination
import WireSchema.Proofs.Lowering.Projection
import WireSchema.Proofs.Source.Members

/-!
# Declarations, decoders and encoders agree on members

In the code of a text every struct that a decoder constructs is declared with just these members, in
their order; a packet is constructed with its own fields; and what an encoder takes out of a struct
are members of its declaration. Entries, variants and members are told apart by their names, unless a
struct stores two fields of one name.
-/

namespace WireSchema

open Ir Lowering Gen Session

variable {types : Refs} {rank : String → Nat} {hooks : Hooks} {em : Emitter}

/-- A struct with members of these names, in this order, is what is declared under the name. -/
def Generated.Declares (g : Generated) (type : String) (names : List String) : Prop :=
  ∃ members, g.decl? type = some (.struct type members) ∧ members.map (·.name) = names

/-- The packet is constructed with its own fields, and other structs as `R` says; only its own fields
are taken out of it. -/
structure Generated.Packet.Agrees (R : String → List String → Prop) (p : Generated.Packet) :
    Prop where
  root : p.decode.result.Makes R p.typeName (p.fields.map (·.name))
  inner : Stmt.Each (Expr.Constructs R) p.decode.stmts
  projects : ∀ name, .field (.var p.this) name ∈ Stmt.nodes p.encode →
    name ∈ p.fields.map (·.name)

theorem Generated.Packet.Agrees.mono {R R' : String → List String → Prop} {p : Generated.Packet}
    (agrees : p.Agrees R) (weaker : ∀ type names, R type names → R' type names) : p.Agrees R' := by
  have constructs (n : Expr) (holds : n.Constructs R) : n.Constructs R' :=
    fun type members same => weaker _ _ (holds type members same)
  obtain ⟨members, made, named, parts⟩ := agrees.root
  exact ⟨⟨members, made, named, fun m member => (parts m member).imp constructs⟩,
    agrees.inner.imp constructs, agrees.projects⟩

namespace Generate

/-! ### Packets -/

theorem leads_packetDecoder (whole : types.Written rank) (tracked : em.Tracked types rank)
    {p : Packet} (written : p.IsWritten types rank) {type : String} {σ : Session} :
    Leads types rank (.structs types rank) σ (packetDecoder hooks em p ⟨type, p.fields⟩) fun e r =>
      e.Makes (r.Builds types rank) type ((p.fields.filter (·.shape.isStored)).map (·.name)) := by
  rw [packetDecoder, written.decode]
  refine (tracked.decodeBindings _ _ written.fields).bind fun bindings _ _ bound => leads_pure ?_
  obtain ⟨fields, stored, same⟩ := bound
  rw [Shape.storedFields_eq (Source.ranked_of_ordered whole.ordered)] at stored
  cases stored
  refine ⟨_, rfl, ?_, List.forall_mem_map.mpr fun _ _ => constructed_var⟩
  rw [← same, List.map_map]
  rfl

theorem leads_packetEncoder (whole : types.Written rank) (tracked : em.Tracked types rank)
    {p : Packet} (written : p.IsWritten types rank) {type : String} {this : Local} {names : String → Prop}
    (among : ∀ f ∈ p.fields, f.shape.isStored = true → names f.name) {σ : Session}
    (issued : Issued (.var this) σ) :
    Leads types rank (.members (.var this) names) σ
      (packetEncoder hooks em p ⟨type, p.fields⟩ (.var this)) fun _ _ => True := by
  rw [packetEncoder, written.encode]
  refine (tracked.encodeFields _ names _ _ _ written.fields (fun f stores => ?_) issued).weaken
    fun _ _ _ => trivial
  have ranked := Source.ranked_of_ordered whole.ordered
  obtain ⟨member, stored⟩ := List.mem_filter.mp (stores.mem ranked (Shape.storedFields_eq ranked _))
  refine ⟨(projects_iff ?_).mpr (List.forall_mem_singleton.mpr (projects_leaf rfl)), ?_⟩
  · rintro _ ⟨⟩
    exact among f member stored
  · exact .inr (Nat.lt_succ_self _)

/-- The declarations of the fields that a packet stores. -/
theorem leads_packetFields (whole : types.Written rank) (tracked : em.Tracked types rank)
    {w : Watch} {p : Packet} (written : p.IsWritten types rank) {σ : Session} :
    Leads types rank w σ ((p.fields.filter (·.shape.isStored)).mapM fun f => do
      let type ← Gen.withHint f.name (em.typeExpr f.shape)
      return { name := f.name, type, doc := f.doc : FieldDecl }) fun decls _ =>
        (p.fields.filter (·.shape.isStored)).map (·.name) = decls.map (·.name) := by
  refine Leads.weaken (Q := fun decls _ => List.Forall₂ DeclaresField _ decls) ?_
    fun decls _ named => map_eq_of_rel named fun _ _ same => Eq.symm same
  refine leads_mapM fun f member τ _ => ?_
  have ofField := written.fields.member whole rfl f (List.mem_filter.mp member).1
  exact Leads.bind (Leads.withHint (tracked.typeExpr w _ _ ofField)) fun _ _ _ _ => leads_pure rfl

theorem carries_packet (whole : types.Written rank) (tracked : em.Tracked types rank) {id : Nat}
    {p : Packet} (written : p.IsWritten types rank) :
    Carries types rank (packet hooks em id p) fun q r => q.Agrees (r.Builds types rank) := by
  intro σ q τ ran tracks
  obtain ⟨υ, inside, rfl⟩ := runs_withHint.mp ran
  simp only [runs_bind, runs_beginFunction, runs_pure, runs_param] at inside
  obtain ⟨decls, σ₁, declared, _, _, rfl, decode, σ₂, decoder, _, _, rfl, this, _, ⟨rfl, rfl⟩,
    ⟨encode, u⟩, σ₃, encoder, rfl, rfl⟩ := inside
  have begins {σ : Session} (refs : σ.refs = types) : (mapDraft Draft.beginFunction σ).Tracks types :=
    ⟨refs, by simp [Draft.beginFunction]⟩
  have hinted : { σ with draft.hints := Naming.typeName p.name :: σ.draft.hints }.Tracks types :=
    ⟨tracks.refs, tracks.raws⟩
  -- First the types of the fields are declared.
  obtain ⟨step, named⟩ := leads_packetFields (w := .structs types rank) whole tracked written hinted
    decls σ₁ declared
  let names := (p.fields.filter (·.shape.isStored)).map (·.name)
  have survives (r : Registry) : Block.Survives (r.Builds types rank)
      (Expr.Makes (r.Builds types rank) (Naming.typeName p.name) names) :=
    fun image makes found => Expr.makes_substFirst image makes found
  -- Then the decoder is generated, whose own struct elision keeps apart from the others.
  obtain ⟨step', inner, root⟩ := Leads.captureBlock survives
    (leads_packetDecoder whole tracked written) (begins (step.refs.trans tracks.refs))
    decode σ₂ decoder
  have refs : σ₂.refs = types := step'.refs.trans (step.refs.trans tracks.refs)
  let begun := mapDraft (fun d => (d.fresh "self").2) (mapDraft Draft.beginFunction σ₂)
  have known : begun.Tracks types := ⟨refs, by simp [begun, Draft.beginFunction, Draft.fresh]⟩
  -- The encoder takes out of a binding that is given out for it.
  have among (f : Field) (member : f ∈ p.fields) (stored : f.shape.isStored = true) :
      f.name ∈ names := List.mem_map_of_mem (List.mem_filter.mpr ⟨member, stored⟩)
  have issued : Issued (.var (σ₂.draft.beginFunction.fresh "self").1)
      { begun with draft := begun.draft.pushScope } :=
    List.forall_mem_singleton.mpr (Nat.lt_succ_self _)
  obtain ⟨step'', all, -⟩ := Leads.capture (leads_packetEncoder whole tracked written among
    issued) known (encode, u) υ encoder
  refine ⟨?_, ?_, ?_⟩
  · exact (step.toEvolves.redraft σ.draft σ₁.draft).trans
      ((step'.toEvolves.redraft σ₁.draft σ₂.draft).trans (step''.toEvolves.redraft σ₂.draft _))
  · exact ⟨(known.adds step'').refs, (known.adds step'').raws⟩
  · refine Generated.Packet.Agrees.mono (R := σ₂.registry.Builds types rank) ?_
      fun type names builds => builds.mono step''.keeps
    rw [show names = decls.map (·.name) from named] at root
    constructor
    case root =>
      -- The name of the struct is read off before names are compared.
      dsimp only
      exact root
    case inner => exact inner
    case projects =>
      intro name node
      rw [← named]
      exact all _ node name rfl

/-- What a packet is made of stays so when the registry goes on. -/
theorem agrees_later {q : Generated.Packet} {r r' : Registry} (keeps : r.Keeps r')
    (agrees : q.Agrees (r.Builds types rank)) : q.Agrees (r'.Builds types rank) :=
  agrees.mono fun _ _ builds => builds.mono keeps

theorem carries_packetsFrom (whole : types.Written rank) (tracked : em.Tracked types rank)
    {packets : List Packet} (written : ∀ p ∈ packets, p.IsWritten types rank)
    (handlers : List String) (id : Nat) :
    Carries types rank (packetsFrom hooks em handlers id packets) fun out r =>
      ∀ q ∈ out, q.Agrees (r.Builds types rank) := by
  induction packets generalizing handlers id with
  | nil =>
    intro σ out τ ran tracks
    obtain ⟨rfl, rfl⟩ := runs_pure.mp ran
    exact ⟨.refl _, tracks, nofun⟩
  | cons p rest ih =>
    intro σ out τ ran tracks
    obtain ⟨own, others⟩ := List.forall_mem_cons.mp written
    simp only [packetsFrom, runs_bind, runs_pure] at ran
    obtain ⟨q, σ₁, first, out, _, later, rfl, rfl⟩ := ran
    obtain ⟨step, tracks, agrees⟩ := carries_packet whole tracked own _ _ _ first tracks
    obtain ⟨step', tracks, all⟩ := ih others _ _ _ _ _ later tracks
    have agrees := agrees_later step'.grows.keeps agrees
    refine ⟨step.trans step', tracks, List.forall_mem_cons.mpr ⟨?_, all⟩⟩
    -- Another handler changes neither body.
    split
    · exact ⟨agrees.root, agrees.inner, agrees.projects⟩
    · exact agrees

theorem carries_protocol (whole : types.Written rank) (tracked : em.Tracked types rank)
    {p : Protocol} (written : ∀ flow, ∀ packet ∈ p.packets flow, packet.IsWritten types rank) :
    Carries types rank (protocol hooks em p) fun q r =>
      ∀ f ∈ q.flows, ∀ packet ∈ f.packets, packet.Agrees (r.Builds types rank) := by
  intro σ q τ ran tracks
  simp only [protocol, runs_bind, runs_pure] at ran
  obtain ⟨units, _, ran, rfl, rfl⟩ := ran
  refine carries_mapM (Q := fun (f : Generated.FlowUnit) r => ∀ packet ∈ f.packets,
    packet.Agrees (r.Builds types rank)) (fun f r r' keeps all packet member =>
      agrees_later keeps (all packet member)) (fun flow _ => ?_) _ _ _ ran tracks
  intro σ f τ ran tracks
  simp only [onNewDraft, runs_bind, runs_updateDraft, runs_pure] at ran
  obtain ⟨_, _, rfl, packets, _, ran, rfl, rfl⟩ := ran
  have fresh : (mapDraft (fun _ => {}) σ).Tracks types := ⟨tracks.refs, List.forall_mem_nil _⟩
  obtain ⟨step, tracks, all⟩ := carries_packetsFrom whole tracked (written flow) _ _ _ _ _ ran fresh
  exact ⟨step.redraft σ.draft _, tracks, all⟩

end Generate

/-! ### The registry in the end -/

namespace Registry

variable {r : Registry} {g : Generated} {type key : String} {names : List String}

/-- The declaration under a name is the one that was finished under it. -/
theorem Faithful.decl (faithful : r.Faithful types rank) (same : g.types = r.finished)
    {d : Decl} (inSlots : (type, some d) ∈ r.slots) (named : d.name = type)
    (plain : ∀ c, d ≠ .codec c) : g.decl? type = some d := by
  have found : d ∈ g.types := by
    rw [same]
    exact Complete.mem_finished.mpr ⟨type, inSlots⟩
  cases search : g.decl? type with
  | none =>
    have missed := List.find?_eq_none.mp search d found
    cases d with
    | codec c => exact absurd rfl (plain c)
    | _ => exact absurd (beq_iff_eq.mpr named) missed
  | some d' =>
    have member := List.mem_of_find?_eq_some search
    have called := List.find?_some search
    rw [same, Complete.mem_finished] at member
    obtain ⟨slot, inSlots'⟩ := member
    have suits := faithful.suits slot d' inSlots'
    -- The slots have different names.
    have unique (own : d'.name = slot) (called : d'.name = type) : d' = d := by
      cases own.symm.trans called
      have found := lookup_of_mem faithful.nodup inSlots
      rw [lookup_of_mem faithful.nodup inSlots'] at found
      exact Option.some.inj (Option.some.inj found)
    cases d' with
    | codec c => cases called
    | _ => rw [unique suits.1 (eq_of_beq called)]

/-- What is declared for a struct has its members. -/
theorem Faithful.declared_struct (faithful : r.Faithful types rank)
    (finished : ∀ name, (name, none) ∉ r.slots) (same : g.types = r.finished) {s : Shape}
    {fields : List Field} (written : s.IsWritten types rank) (struct : s.isStructLike = true)
    (stored : s.storedFields types = .ok fields)
    (known : r.constants.lookup (s.canonicalName types) = some type) :
    ∃ members, g.decl? type = some (.struct type members) ∧
      members.map (·.name) = fields.map (·.name) := by
  have declared := isDeclared_iff.mp (faithful.declared _ _ known)
  obtain ⟨⟨slot, o⟩, inSlots, rfl⟩ := List.mem_map.mp declared
  cases o with
  | none => exact absurd inSlots (finished slot)
  | some d =>
    obtain ⟨name, members, rfl, named⟩ := faithful.describes _ _ d known inSlots s fields written
      struct rfl stored
    cases (faithful.suits _ _ inSlots).1
    exact ⟨members, faithful.decl same inSlots rfl nofun, named⟩

theorem Faithful.declares (faithful : r.Faithful types rank)
    (finished : ∀ name, (name, none) ∉ r.slots) (same : g.types = r.finished)
    (builds : r.Builds types rank type names) : g.Declares type names := by
  obtain ⟨s, fields, written, struct, stored, rfl, known⟩ := builds
  exact faithful.declared_struct finished same written struct stored known

end Registry

/-! ### The schema -/

namespace Schema.Written

variable {s : Schema}

/-- In the end the registry is faithful, everything that was begun is finished, and the packets
agree. -/
theorem generated (written : s.Written rank) {protocols : List Generated.Protocol} {τ : Session}
    (ran : Runs (s.generateUnits hooks) s.session protocols τ) :
    τ.refs = s.refs ∧ τ.registry.Faithful s.refs rank ∧
      (∀ name, (name, none) ∉ τ.registry.slots) ∧ ∀ p ∈ protocols, ∀ f ∈ p.flows, ∀ packet ∈ f.packets,
        packet.Agrees (τ.registry.Builds s.refs rank) := by
  have tracked := tracked_emitter hooks written.refs (depthFor s.weight)
  obtain ⟨σ, prepared, generated⟩ := runs_generateUnits.mp ran
  have prepares : Carries s.refs rank (s.types.forM fun entry =>
      (emitter hooks (depthFor s.weight)).prepare entry.2) fun _ _ => ∀ entry ∈ s.types, True := by
    refine carries_of_leads (w := .structs s.refs rank) fun σ => leads_forM fun entry member τ _ => ?_
    exact tracked.prepare _ entry.2 τ (written.refs.entry (written.types ▸ member))
  obtain ⟨step, tracks, -⟩ := prepares _ _ _ prepared ⟨rfl, nofun⟩
  obtain ⟨step', -, agree⟩ := carries_mapM (Q := fun (p : Generated.Protocol) r => ∀ f ∈ p.flows,
    ∀ packet ∈ f.packets, packet.Agrees (r.Builds s.refs rank))
    (fun p r r' keeps all f inside packet member =>
      Generate.agrees_later keeps (all f inside packet member))
    (fun p member => Generate.carries_protocol written.refs tracked (written.packets p member))
    _ _ _ generated tracks
  have whole := step.trans step'
  refine ⟨whole.refs, whole.faithful Registry.faithful_empty, fun name begun => ?_, agree⟩
  cases whole.unfinished name begun

/-- Whatever the schema is made of is written. -/
theorem met (written : s.Written rank) {t : Shape} (meets : s.Meets t) :
    t.IsWritten s.refs rank := by
  obtain ⟨root, reaches, ⟨entry, member, rfl⟩ | ⟨p, inSchema, flow, packet, inFlow, f, member, rfl⟩⟩ :=
    meets
  · exact (written.refs.entry (written.types ▸ member)).reached written.refs reaches
  · have fields := (written.packets p inSchema flow packet inFlow).fields
    exact (fields.member written.refs rfl f member).reached written.refs reaches

end Schema.Written

/-- A part has no more nodes than the whole. -/
theorem Ir.Expr.length_nodes_le (e : Expr) {n : Expr} (member : n ∈ e.nodes) :
    n.nodes.length ≤ e.nodes.length := by
  rw [nodes_eq] at member
  rcases List.mem_cons.mp member with rfl | within
  · exact Nat.le_refl _
  · obtain ⟨part, inside, member⟩ := List.mem_flatMap.mp within
    have smaller : part.nodes.length < e.nodes.length := by
      rw [nodes_eq e, List.length_cons, List.flatMap_def]
      exact Nat.lt_succ_of_le (List.sublist_flatten_of_mem (List.mem_map_of_mem inside)).length_le
    exact (part.length_nodes_le member).trans smaller.le
termination_by e.nodes.length

/-- What is taken out of the source of a struct is stored in the struct. -/
theorem Lowering.stored_of_encode {depth : Nat} (whole : types.Written rank) {t : Shape}
    (written : t.IsWritten types rank) (struct : t.isStructLike = true) {source : Expr}
    {σ τ : Session} {stmts : List Stmt} (tracks : σ.Tracks types) (issued : Issued source σ)
    (ran : Runs (capture ((emitter hooks depth).encode t source)) σ (stmts, ()) τ) :
    ∃ type fields, τ.registry.constants.lookup (t.canonicalName types) = some type ∧
      t.storedFields types = .ok fields ∧
      ∀ name, .field source name ∈ Stmt.nodes stmts → name ∈ fields.map (·.name) := by
  -- What is watched for are the names of the fields that the struct stores.
  let names (name : String) : Prop := ∃ f, Shape.Stores types t f ∧ f.name = name
  have each (r : Registry) : (Watch.members source names).Each r source := by
    rintro _ node name rfl
    exact absurd (source.length_nodes_le node) (Nat.not_succ_le_self _)
  have admits : Admits types source names t source :=
    ⟨each, .inr (.inr ⟨rfl, struct, fun f stores => ⟨f, stores, rfl⟩⟩)⟩
  obtain ⟨-, all, holds⟩ := Leads.capture ((tracked_emitter hooks whole depth).encode source names t
    source _ written (fun _ => admits) issued) tracks (stmts, ()) τ ran
  obtain ⟨⟨fields, stored⟩, type, known⟩ := holds struct
  refine ⟨type, fields, known, stored, fun name node => ?_⟩
  obtain ⟨f, stores, rfl⟩ := all _ node name rfl
  exact List.mem_map_of_mem (stores.mem (Source.ranked_of_ordered whole.ordered) stored)

/-- Declarations, decoders and encoders of the generated code agree on the members of structs. -/
structure Generated.MembersAgree (hooks : Hooks) (s : Schema) (g : Generated) : Prop where
  packets : ∀ p ∈ g.protocols, ∀ f ∈ p.flows, ∀ packet ∈ f.packets, packet.Agrees g.Declares
  codecs : ∀ c, .codec c ∈ g.types → Stmt.Each (Expr.Constructs g.Declares) c.decode.stmts ∧
    c.decode.result.Each (Expr.Constructs g.Declares)
  /-- Wherever the encoder of a struct is generated, with the names that count in the end, it takes
  out of its source members of the declaration of the struct only. -/
  encoders : ∀ protocols final, Runs (s.generateUnits hooks) s.session protocols final →
    ∀ t, s.Meets t → t.isStructLike = true → ∀ depth source σ stmts τ, σ.Tracks s.refs →
    Issued source σ → Runs (capture ((emitter hooks depth).encode t source)) σ (stmts, ()) τ →
    τ.registry.Keeps final.registry → ∃ type members,
      final.registry.constants.lookup (t.canonicalName s.refs) = some type ∧
      g.decl? type = some (.struct type members) ∧
      ∀ name, .field source name ∈ Stmt.nodes stmts → name ∈ members.map (·.name)

theorem Schema.members_agree {firstGroup : Nat} {text : String} {s : Schema} {g : Generated}
    (parsed : Schema.parseFrom firstGroup text = .ok s) (ran : s.generate hooks = .ok g) :
    g.MembersAgree hooks s := by
  obtain ⟨rank, written⟩ := written_of_parseFrom parsed
  obtain ⟨protocols, τ, units, types, _, packed⟩ := generate_ok ran
  obtain ⟨_, faithful, finished, agree⟩ := written.generated units
  have declares (type : String) (names : List String)
      (builds : τ.registry.Builds s.refs rank type names) : g.Declares type names :=
    faithful.declares finished types builds
  constructor
  case packets =>
    rw [packed]
    -- The imports that are added at the end concern no packet.
    intro p member f flow packet inside
    obtain ⟨q, among, rfl⟩ := List.mem_map.mp member
    obtain ⟨f', among', rfl⟩ := List.mem_map.mp flow
    exact (agree q among f' among' packet inside).mono declares
  case codecs =>
    intro c member
    rw [types] at member
    obtain ⟨slot, inSlots⟩ := Registry.Complete.mem_finished.mp member
    obtain ⟨stmts, result⟩ := faithful.suits slot _ inSlots
    have constructs (n : Expr) (knows : τ.registry.Knows s.refs rank n) : n.Constructs g.Declares :=
      fun type members same => declares _ _ (knows type members same)
    exact ⟨stmts.imp constructs, result.imp constructs⟩
  case encoders =>
    intro protocols' final units' t meets struct depth source σ stmts υ tracks issued encodes keeps
    cases units'.symm.trans units
    obtain ⟨type, fields, known, stored, within⟩ :=
      stored_of_encode written.refs (written.met meets) struct tracks issued encodes
    have known := keeps _ _ known
    obtain ⟨members, found, named⟩ :=
      faithful.declared_struct finished types (written.met meets) struct stored known
    exact ⟨type, members, known, found, fun name node => named ▸ within name node⟩

/-- A struct with a literal, which is not stored, and its fields merged with the slots of an integer.
-/
def vectors : String :=
  "type V=struct\x7bx:u8;k:literal<u8>(7);y:u8;\x7d; protocol p\x7bserverbound\x7bpacket q\x7b" ++
    "v:V;w:merge(V,packed<u8>[lo:4,hi:4]);\x7d\x7d\x7d"

/-- The fields of the packets to the server. -/
def Schema.serverFields (s : Schema) : List Field :=
  s.protocols.flatMap fun p => p.serverbound.flatMap (·.fields)

/-- Whether the encoder of the struct can be generated once more in the end, takes `lo` out of its
source, and needs no name that is not known. -/
def encodesAgain (s : Schema) (t : Shape) : Bool :=
  match (s.generateUnits .none).start s.session with
  | (.ok _, final) =>
    match (capture ((emitter .none 9).encode t (.var ⟨0, "w"⟩))).start final with
    | (.ok (stmts, ()), τ) =>
      t.isStructLike && τ.registry.constants == final.registry.constants &&
        final.draft.groups.isEmpty && decide (0 < final.draft.nextLocal) &&
        (Stmt.nodes stmts).any fun
          | .field (.var ⟨0, "w"⟩) "lo" => true
          | _ => false
    | _ => false
  | _ => false

theorem exists_of_encodesAgain {s : Schema} {t : Shape} (written : s.Written rank)
    (holds : encodesAgain s t = true) : ∃ protocols final stmts τ,
      Runs (s.generateUnits .none) s.session protocols final ∧ final.Tracks s.refs ∧
      Issued (.var ⟨0, "w"⟩) final ∧ t.isStructLike = true ∧
      Runs (capture ((emitter .none 9).encode t (.var ⟨0, "w"⟩))) final (stmts, ()) τ ∧
      τ.registry.Keeps final.registry ∧ .field (.var ⟨0, "w"⟩) "lo" ∈ Stmt.nodes stmts := by
  unfold encodesAgain at holds
  split at holds
  case h_2 => cases holds
  case h_1 protocols final units =>
    split at holds
    case h_2 => cases holds
    case h_1 stmts τ encodes =>
      simp only [Bool.and_eq_true, List.isEmpty_iff, beq_iff_eq, decide_eq_true_eq,
        List.any_eq_true] at holds
      obtain ⟨⟨⟨⟨struct, constants⟩, groups⟩, given⟩, node, member, form⟩ := holds
      split at form
      case h_2 => cases form
      case h_1 =>
        have refs := (written.generated units).1
        refine ⟨protocols, final, stmts, τ, units, ⟨refs, by simp [groups]⟩, ?_, struct, encodes, ?_,
          member⟩
        · exact List.forall_mem_singleton.mpr given
        · exact fun key name known => constants ▸ known

set_option maxRecDepth 2000 in
theorem Schema.members_agree_vectors : ∃ s g, Schema.parse vectors = .ok s ∧
    s.generate .none = .ok g ∧ g.MembersAgree .none s ∧
    ∃ f ∈ s.serverFields, ∃ final stmts τ type members, f.shape.isStructLike = true ∧
      Runs (capture ((emitter .none 9).encode f.shape (.var ⟨0, "w"⟩))) final (stmts, ()) τ ∧
      .field (.var ⟨0, "w"⟩) "lo" ∈ Stmt.nodes stmts ∧
      g.decl? type = some (.struct type members) ∧ "lo" ∈ members.map (·.name) := by
  have accepted : (Schema.parse vectors).toOption.any (fun s =>
      ((s.generate .none).toOption.any fun _ => true) &&
        s.serverFields.any fun f => encodesAgain s f.shape) = true := by decide +kernel
  obtain ⟨s, parsed, holds⟩ := exists_ok_of_any accepted
  obtain ⟨generates, encodes⟩ := Bool.and_eq_true_iff.mp holds
  obtain ⟨g, ran, _⟩ := exists_ok_of_any generates
  obtain ⟨f, member, again⟩ := List.any_eq_true.mp encodes
  have agree := members_agree parsed ran
  obtain ⟨rank, written⟩ := written_of_parseFrom parsed
  obtain ⟨protocols, final, stmts, τ, units, tracks, issued, struct, encodes, keeps, node⟩ :=
    exists_of_encodesAgain written again
  have meets : s.Meets f.shape := by
    obtain ⟨p, inSchema, within⟩ := List.mem_flatMap.mp member
    obtain ⟨packet, inFlow, inside⟩ := List.mem_flatMap.mp within
    have inFlow : packet ∈ p.packets .serverbound := inFlow
    exact Schema.meets_field inSchema inFlow inside
  obtain ⟨type, members, _, found, within⟩ := agree.encoders protocols final units f.shape meets
    struct 9 _ final stmts τ tracks issued encodes keeps
  exact ⟨s, g, parsed, ran, agree, f, member, final, stmts, τ, type, members, struct, encodes, node,
    found, within _ node⟩

/-! ### Distinct members -/

/-- Where names are distinct, an entry is found by its name. -/
theorem Ir.EnumDecl.idOf?_iff {d : EnumDecl} (distinct : (d.entries.map (·.1)).Nodup) {name : String}
    {id : Int} : d.idOf? name = some id ↔ (name, id) ∈ d.entries := by
  change (d.entries.find? (·.1 == name)).map (·.2) = some id ↔ _
  constructor
  · intro found
    obtain ⟨entry, searched, rfl⟩ := Option.map_eq_some_iff.mp found
    obtain rfl := key_of_find? searched
    exact List.mem_of_find?_eq_some searched
  · intro member
    rw [find?_of_distinct distinct member]
    rfl

/-- Where ids are distinct, an entry is found by its id. -/
theorem Ir.EnumDecl.nameOf?_iff {d : EnumDecl} (distinct : (d.entries.map (·.2)).Nodup)
    {name : String} {id : Int} : d.nameOf? id = some name ↔ (name, id) ∈ d.entries := by
  change (d.entries.find? (·.2 == id)).map (·.1) = some name ↔ _
  constructor
  · intro found
    obtain ⟨entry, searched, rfl⟩ := Option.map_eq_some_iff.mp found
    obtain rfl := key_of_find? searched
    exact List.mem_of_find?_eq_some searched
  · intro member
    rw [find?_of_distinct distinct member]
    rfl

/-- Entries and variants are told apart by their names, and names and ids of entries are found from
each other. A struct has two members of one name only if it stores two fields of that name. -/
structure Generated.MembersAreDistinct (hooks : Hooks) (s : Schema) (g : Generated) : Prop where
  enums : ∀ d, .enum d ∈ g.types → (d.entries.map (·.1)).Nodup ∧ (d.entries.map (·.2)).Nodup ∧
    ∀ name id, d.idOf? name = some id ↔ d.nameOf? id = some name
  unions : ∀ name variants, .union name variants ∈ g.types → (variants.map (·.name)).Nodup
  structs : ∀ protocols final, Runs (s.generateUnits hooks) s.session protocols final →
    ∀ t, s.Meets t → t.isStructLike = true → ∀ type fields,
    final.registry.constants.lookup (t.canonicalName s.refs) = some type →
    t.storedFields s.refs = .ok fields →
    ∃ members, g.decl? type = some (.struct type members) ∧
      ((members.map (·.name)).Nodup ↔ (fields.map (·.name)).Nodup)

theorem Schema.members_are_distinct {firstGroup : Nat} {text : String} {s : Schema} {g : Generated}
    (parsed : Schema.parseFrom firstGroup text = .ok s) (ran : s.generate hooks = .ok g) :
    g.MembersAreDistinct hooks s := by
  obtain ⟨rank, written⟩ := written_of_parseFrom parsed
  obtain ⟨protocols, τ, units, types, _, _⟩ := generate_ok ran
  obtain ⟨_, faithful, finished, _⟩ := written.generated units
  constructor
  case enums =>
    intro d member
    rw [types] at member
    obtain ⟨slot, inSlots⟩ := Registry.Complete.mem_finished.mp member
    obtain ⟨_, names, ids⟩ := faithful.suits slot _ inSlots
    refine ⟨names, ids, fun name id => ?_⟩
    rw [EnumDecl.idOf?_iff names, EnumDecl.nameOf?_iff ids]
  case unions =>
    intro name variants member
    rw [types] at member
    obtain ⟨slot, inSlots⟩ := Registry.Complete.mem_finished.mp member
    exact (faithful.suits slot _ inSlots).2
  case structs =>
    intro protocols' final units' t meets struct type fields known stored
    cases units'.symm.trans units
    obtain ⟨members, found, named⟩ :=
      faithful.declared_struct finished types (written.met meets) struct stored known
    exact ⟨members, found, by rw [named]⟩

end WireSchema
