import WireSchema.Proofs.Source.Counting
import WireSchema.Proofs.Source.Productions

/-!
# Reading what is written

Declarations stand for calls of the builder: one for each type, protocol and packet, with the shapes
that the written types stand for. A text that spells sound declarations describes the schema that
these calls build, however it spells them, up to the numbers of bit groups and the use of references.
The one exception are enumerations in which an entry has the largest id: they are not read, since the
id after each entry is counted.

## Main results

* `parse_inverts_spelling`: the text of sound and counted declarations describes the schema of the
  builder.
* `parse_spelling_iff`: the text of sound declarations is read if and only if they are counted.
-/

namespace WireSchema

open Source

namespace Schema

/-! ### Calls of the builder -/

/-- The calls for a type: it is declared or exported, and references to it are resolved. -/
def buildType (s : Schema) (d : TypeDecl) : Except SchemaError Schema := do
  let (shape, s) ←
    if d.exported then s.exportType d.name d.type.node else s.declareType d.name d.type.node
  s.resolve d.name shape

/-- The call for a packet. -/
def buildPacket (protocol : String) (flow : Flow) (s : Schema) (p : PacketSpec) :
    Except SchemaError Schema := do
  let (_, s) ← s.addPacket protocol flow
    { name := p.name, fields := TypeSpec.nodeFields p.fields, doc := docOf p.docs }
  return s

/-- The calls for a protocol and its packets. -/
def buildProtocol (s : Schema) (d : ProtocolDecl) : Except SchemaError Schema := do
  let s ← s.addProtocol d.name
  d.flows.foldlM (fun s block => block.packets.foldlM (buildPacket d.name block.flow) s) s

/-- The schema that the builder makes of declarations. -/
def build (items : List Item) : Except SchemaError Schema := do
  let s ← (items.filterMap Item.type?).foldlM buildType {}
  (items.filterMap Item.protocol?).foldlM buildProtocol s

end Schema

namespace Source

/-- The packets of a flow, in all its blocks. -/
def ProtocolDecl.packets (d : ProtocolDecl) (flow : Flow) : List PacketSpec :=
  (d.flows.filter (·.flow = flow)).flatMap (·.packets)

/-- The declarations have sound types without circles, and names that come once. -/
structure SoundItems (items : List Item) : Prop where
  types : ∀ d ∈ items.filterMap Item.type?,
    d.type.Sound ((items.filterMap Item.type?).map (·.name))
  fields : ∀ d ∈ items.filterMap Item.protocol?, ∀ block ∈ d.flows, ∀ p ∈ block.packets,
    TypeSpec.SoundFields ((items.filterMap Item.type?).map (·.name)) p.fields
  acyclic : (Mentions.ofDecls (items.filterMap Item.type?)).Acyclic
  typeNames : ((items.filterMap Item.type?).map (·.name)).Nodup
  protocolNames : ((items.filterMap Item.protocol?).map (·.name)).Nodup
  packetNames : ∀ d ∈ items.filterMap Item.protocol?, ∀ flow,
    ((d.packets flow).map (·.name)).Nodup

/-! ### The builder succeeds -/

/-- The types that the builder declares. -/
def nodeTable (ds : List TypeDecl) : Refs := ds.map fun d => (d.name, d.wrap d.type.node)

theorem nodeTable_keys (ds : List TypeDecl) : (nodeTable ds).map (·.1) = ds.map (·.name) := by
  rw [nodeTable, List.map_map]
  rfl

theorem buildTypes_ok : ∀ {ds : List TypeDecl} {s : Schema}, (ds.map (·.name)).Nodup →
    (∀ d ∈ ds, d.name ∉ s.types.map (·.1) ∧ d.name ∉ s.refs.map (·.1)) →
    ds.foldlM Schema.buildType s =
      .ok { s with types := s.types ++ nodeTable ds, refs := s.refs ++ nodeTable ds }
  | [], s, _, _ => by simp [nodeTable, pure, Except.pure]
  | d :: ds, s, nodup, free => by
    rw [List.map_cons, List.nodup_cons] at nodup
    obtain ⟨freeType, freeRef⟩ := free d (List.mem_cons_self ..)
    have first : s.buildType d = .ok { s with
        types := s.types ++ [(d.name, d.wrap d.type.node)]
        refs := s.refs ++ [(d.name, d.wrap d.type.node)] } :=
      (declare_bind freeType d.type.node _).trans (resolve_ok (by exact freeRef) _)
    have later : ∀ e ∈ ds, e.name ∉ (s.types ++ [(d.name, d.wrap d.type.node)]).map (·.1) ∧
        e.name ∉ (s.refs ++ [(d.name, d.wrap d.type.node)]).map (·.1) := by
      intro e member
      have other : e.name ≠ d.name := fun same => nodup.1 (List.mem_map.mpr ⟨e, member, same⟩)
      have old := free e (List.mem_cons_of_mem _ member)
      simp only [List.map_append, List.map_cons, List.map_nil, List.mem_append, List.mem_singleton]
      exact ⟨fun found => found.elim old.1 other, fun found => found.elim old.2 other⟩
    rw [List.foldlM_cons, first]
    refine (buildTypes_ok nodup.2 later).trans ?_
    simp [nodeTable]

/-- The last protocol of a schema is the one at hand. -/
structure AtHand (s : Schema) (done : List Protocol) (current : Protocol) : Prop where
  form : s.protocols = done ++ [current]
  apart : ∀ q ∈ done, q.name ≠ current.name

theorem AtHand.addPacket {s : Schema} {done : List Protocol} {current : Protocol} {flow : Flow}
    (atHand : AtHand s done current) (packet : Packet)
    (fresh : packet.name ∉ (current.packets flow).map (·.name)) :
    ∃ id, s.addPacket current.name flow packet =
      .ok (id, { s with protocols := done ++ [current.append flow packet] }) := by
  have notDone : ∀ q ∈ done, (q.name == current.name) = false :=
    fun q member => beq_false_of_ne (atHand.apart q member)
  have found : s.protocols.find? (·.name == current.name) = some current := by
    rw [atHand.form, List.find?_append, List.find?_eq_none.mpr]
    · simp
    · intro q member
      simp [notDone q member]
  have added : current.addPacket flow packet =
      .ok ((current.packets flow).length, current.append flow packet) := by
    refine if_neg fun taken => ?_
    obtain ⟨p, member, same⟩ := List.any_eq_true.mp taken
    exact fresh (List.mem_map.mpr ⟨p, member, eq_of_beq same⟩)
  have replaced : (s.protocols.map fun q =>
      if q.name == current.name then current.append flow packet else q) =
      done ++ [current.append flow packet] := by
    rw [atHand.form, List.map_append]
    congr 1
    · refine (List.map_congr_left fun q member => ?_).trans (List.map_id _)
      rw [notDone q member]
      rfl
    · simp
  refine ⟨(current.packets flow).length, ?_⟩
  simp only [Schema.addPacket, found, added, bind, Except.bind, replaced]
  rfl

/-- What the packets of a block make of the protocol at hand. -/
theorem buildPackets_ok {name : String} (flow : Flow) {done : List Protocol} :
    ∀ (ps : List PacketSpec) {s : Schema} {current : Protocol}, AtHand s done current →
    current.name = name → ((current.packets flow).map (·.name) ++ ps.map (·.name)).Nodup →
    ∃ s' after, ps.foldlM (Schema.buildPacket name flow) s = .ok s' ∧ AtHand s' done after ∧
      after.name = name ∧ ∀ other, (after.packets other).map (·.name) =
        (current.packets other).map (·.name) ++ if flow = other then ps.map (·.name) else []
  | [], s, current, atHand, named, _ => ⟨s, current, rfl, atHand, named, fun _ => by simp⟩
  | p :: ps, s, current, atHand, named, nodup => by
    subst named
    have fresh : p.name ∉ (current.packets flow).map (·.name) := fun taken =>
      (List.nodup_append.mp nodup).2.2 _ taken _ (List.mem_cons_self ..) rfl
    let packet : Packet :=
      { name := p.name, fields := TypeSpec.nodeFields p.fields, doc := docOf p.docs }
    obtain ⟨id, added⟩ := atHand.addPacket packet fresh
    have first : Schema.buildPacket current.name flow s p =
        .ok { s with protocols := done ++ [current.append flow packet] } := by
      simp only [Schema.buildPacket]
      rw [added]
      rfl
    have atHand' : AtHand { s with protocols := done ++ [current.append flow packet] } done
        (current.append flow packet) :=
      ⟨rfl, fun q member => current.name_append flow packet ▸ atHand.apart q member⟩
    have names (other : Flow) : ((current.append flow packet).packets other).map (·.name) =
        (current.packets other).map (·.name) ++ if flow = other then [p.name] else [] := by
      rw [Protocol.packets_append]
      split <;> simp [packet]
    obtain ⟨s', after, others, atHand'', named', packets⟩ := buildPackets_ok flow ps
      atHand' (current.name_append flow packet) (by rw [names]; simpa using nodup)
    refine ⟨s', after, ?_, atHand'', named', fun other => ?_⟩
    · rw [List.foldlM_cons, first]
      exact others
    · rw [packets, names]
      split <;> simp

theorem buildFlows_ok {name : String} {done : List Protocol} : ∀ (blocks : List FlowSpec)
    {s : Schema} {current : Protocol}, AtHand s done current → current.name = name →
    (∀ flow, ((current.packets flow).map (·.name) ++
      ((blocks.filter (·.flow = flow)).flatMap (·.packets)).map (·.name)).Nodup) →
    ∃ s' after, blocks.foldlM (fun s block =>
      block.packets.foldlM (Schema.buildPacket name block.flow) s) s = .ok s' ∧
      AtHand s' done after ∧ after.name = name
  | [], s, current, atHand, named, _ => ⟨s, current, rfl, atHand, named⟩
  | block :: blocks, s, current, atHand, named, nodup => by
    have own : ((current.packets block.flow).map (·.name) ++
        block.packets.map (·.name)).Nodup := by
      refine (nodup block.flow).sublist ?_
      simp
    obtain ⟨s₁, middle, first, atHand₁, named₁, packets⟩ := buildPackets_ok block.flow block.packets atHand
      named own
    obtain ⟨s', after, others, atHand', named'⟩ := buildFlows_ok blocks atHand₁ named₁
      (by
        intro flow
        have all := nodup flow
        rw [packets]
        by_cases same : block.flow = flow
        · simpa [same] using all
        · simpa [same] using all)
    refine ⟨s', after, ?_, atHand', named'⟩
    rw [List.foldlM_cons, first]
    exact others

theorem buildProtocols_ok : ∀ {ds : List ProtocolDecl} {s : Schema}, (ds.map (·.name)).Nodup →
    (∀ d ∈ ds, ∀ flow, ((d.packets flow).map (·.name)).Nodup) →
    (∀ d ∈ ds, ∀ q ∈ s.protocols, q.name ≠ d.name) →
    ∃ s', ds.foldlM Schema.buildProtocol s = .ok s'
  | [], s, _, _, _ => ⟨s, rfl⟩
  | d :: ds, s, nodup, packets, free => by
    rw [List.map_cons, List.nodup_cons] at nodup
    have fresh : s.addProtocol d.name =
        .ok { s with protocols := s.protocols ++ [{ name := d.name }] } := by
      refine if_neg fun taken => ?_
      obtain ⟨q, member, same⟩ := List.any_eq_true.mp taken
      exact free d (List.mem_cons_self ..) q member (eq_of_beq same)
    have atHand : AtHand { s with protocols := s.protocols ++ [{ name := d.name }] } s.protocols
        { name := d.name } := ⟨rfl, free d (List.mem_cons_self ..)⟩
    obtain ⟨s₁, after, flows, atHand₁, named⟩ := buildFlows_ok d.flows atHand rfl
      (by
        intro flow
        have none : (Protocol.packets { name := d.name } flow).map (·.name) = [] := by
          cases flow <;> rfl
        rw [none, List.nil_append]
        exact packets d (List.mem_cons_self ..) flow)
    have first : s.buildProtocol d = .ok s₁ := bind_ok.mpr ⟨_, fresh, flows⟩
    obtain ⟨s', others⟩ := buildProtocols_ok (s := s₁) nodup.2
      (fun e member => packets e (List.mem_cons_of_mem _ member)) (by
        intro e member q inside same
        rw [atHand₁.form] at inside
        rcases List.mem_append.mp inside with old | new
        · exact free e (List.mem_cons_of_mem _ member) q old same
        · rw [List.mem_singleton.mp new, named] at same
          exact nodup.1 (List.mem_map.mpr ⟨e, member, same.symm⟩))
    refine ⟨s', ?_⟩
    rw [List.foldlM_cons, first]
    exact others

theorem buildPacket_kept {protocol : String} {flow : Flow} {s s' : Schema} {p : PacketSpec}
    (ran : Schema.buildPacket protocol flow s p = .ok s') : SameTypes s s' := by
  obtain ⟨⟨id, t⟩, added, same⟩ := bind_ok.mp ran
  cases same
  exact Schema.addPacket_kept added

theorem buildProtocols_kept {ds : List ProtocolDecl} {s s' : Schema}
    (ran : ds.foldlM Schema.buildProtocol s = .ok s') : SameTypes s s' := by
  refine foldlM_kept (P := SameTypes s) (fun d _ t t' kept ran => ?_) ⟨rfl, rfl⟩ ran
  obtain ⟨t₁, first, ran⟩ := bind_ok.mp ran
  have named : SameTypes s t₁ := kept.trans (Schema.addProtocol_kept first)
  refine foldlM_kept (P := SameTypes s) (fun block _ t t' kept ran => ?_) named ran
  exact foldlM_kept (P := SameTypes s) (fun p _ t t' kept ran => kept.trans (buildPacket_kept ran))
    kept ran

/-! ### The builder and the text -/

section Nodes

open TypeSpec

theorem packedNode_labels (backing : Primitive) (slots : List (String × Numeral))
    (order : Option (List String)) : (packedNode backing slots order).labels = [] := by
  refine labels_of_slots fun f member => ?_
  obtain ⟨name, _, rfl⟩ := List.mem_map.mp member
  exact ⟨_, _, _, rfl⟩

theorem flagsNode_labels (backing : Primitive) (entries : List (String × Numeral)) :
    (flagsNode backing entries).labels = [] := by
  refine labels_of_slots fun f member => ?_
  obtain ⟨⟨⟨name, mask⟩, index⟩, _, rfl⟩ := List.mem_map.mp member
  exact ⟨_, _, _, rfl⟩

mutual

/-- The references in what a type stands for are the types it mentions. -/
theorem node_labels : ∀ t : TypeSpec, t.node.labels = t.mentions
  | .named name => by
    rw [node, mentions]
    cases Primitive.ofName? name <;> rfl
  | .bytes _ => rfl
  | .optional value => by
    rw [node, mentions, Shape.opt, Shape.labels, node_labels value]
    exact List.append_nil _
  | .list item _ => by rw [node, mentions, Shape.labels, node_labels item]
  | .map key value _ => by rw [node, mentions, Shape.labels, node_labels key, node_labels value]
  | .enum _ _ => rfl
  | .union _ tag arms => by
    rw [node, mentions, Shape.labels, node_labels tag, nodeVariants_labels arms]
  | .struct fields => by rw [node, mentions, Shape.labels, nodeFields_labels fields]
  | .merge parts => by rw [node, mentions, Shape.labels, nodeParts_labels parts]
  | .packed _ _ _ => by rw [node, mentions, packedNode_labels]
  | .flags _ _ => by rw [node, mentions, flagsNode_labels]
  | .literal _ _ => by
    rw [node, mentions]
    unfold Shape.fixed
    split <;> rfl

theorem nodeFields_labels : ∀ fields : List (FieldSpec TypeSpec),
    Shape.labelsOfFields (nodeFields fields) = mentionsFields fields
  | [] => rfl
  | ⟨_, _, type⟩ :: rest => by
    rw [nodeFields, mentionsFields, Shape.labelsOfFields, node_labels type, nodeFields_labels rest]

theorem nodeParts_labels : ∀ parts : List TypeSpec,
    Shape.labelsOfParts (nodeParts parts) = mentionsParts parts
  | [] => rfl
  | part :: rest => by
    rw [nodeParts, mentionsParts, Shape.labelsOfParts, node_labels part, nodeParts_labels rest]

theorem nodeVariants_labels : ∀ arms : List (ArmSpec TypeSpec),
    Shape.labelsOfVariants (nodeVariants arms) = mentionsArms arms
  | [] => rfl
  | ⟨_, _, fields⟩ :: rest => by
    rw [nodeVariants, mentionsArms, Shape.labelsOfVariants, Shape.labels, nodeFields_labels fields,
      nodeVariants_labels rest]

end

end Nodes

theorem meets_nothing (target : String → Shape) (names : List String) :
    Lookup.Meets target names (lookupIn names []) :=
  meets_lookupIn (List.forall_mem_nil _) (List.forall_mem_nil _)

/-- What the declarations stand for is ranked. -/
theorem ranked_nodeTable {ds : List TypeDecl} (nodup : (ds.map (·.name)).Nodup)
    (sound : ∀ d ∈ ds, d.type.Sound (ds.map (·.name))) (counted : ∀ d ∈ ds, d.type.Counted)
    (acyclic : (Mentions.ofDecls ds).Acyclic) :
    ∃ rank, (nodeTable ds).Ranked rank := by
  have declared : ∀ d ∈ ds, ∀ m ∈ d.type.mentions, m ∈ ds.map (·.name) := by
    intro d member m mentioned
    have meets := meets_nothing (fun _ => .ref "") (ds.map (·.name))
    obtain ⟨s, g, builds, _⟩ := sound_builds meets d.type (sound d member) (counted d member) 0
    obtain ⟨x, found⟩ := shape_found d.type builds m mentioned
    exact meets.only m x found
  obtain ⟨rank, lower, bounded⟩ := exists_rank_of_check nodup declared
    (Mentions.check_of_acyclic acyclic)
  refine ⟨rank, ?_⟩
  constructor
  case lower =>
    intro label target found other inside
    obtain ⟨d, member, same⟩ := List.mem_map.mp (mem_of_lookup found)
    cases same
    refine lower d member other ?_
    rcases d.wrap_form d.type.node with form | form <;> rw [form] at inside <;>
      exact node_labels d.type ▸ inside
  case bounded =>
    intro label target found
    obtain ⟨d, member, same⟩ := List.mem_map.mp (mem_of_lookup found)
    cases same
    rw [nodeTable, List.length_map]
    exact bounded d member

/-- The schema of the builder has the protocols of the schema under construction. -/
def MatchesAssembly (target : String → Shape) (s : Schema) (a : Assembly) : Prop :=
  s.SameProtocols target a.schema

section Sound

variable {target : String → Shape} {names : List String} {lookup : Lookup}

/-- A packet of sound and counted fields is added to both schemas. -/
theorem addPacket_sound (meets : Lookup.Meets target names lookup) {protocol : String} {flow : Flow}
    {p : PacketSpec} (sound : TypeSpec.SoundFields names p.fields)
    (counted : TypeSpec.CountedFields p.fields) {s s' : Schema} {a : Assembly}
    (same : MatchesAssembly target s a) (ran : Schema.buildPacket protocol flow s p = .ok s') :
    ∃ b, a.addPacket lookup protocol flow p = .ok b ∧ MatchesAssembly target s' b := by
  obtain ⟨⟨id, t⟩, added, isT⟩ := bind_ok.mp ran
  cases isT
  obtain ⟨fields, g, builds, sameFields⟩ :=
    soundFields_builds meets p.fields sound counted a.schema.nextGroup
  have samePacket :
      Packet.unfoldWith target
        { name := p.name, fields := TypeSpec.nodeFields p.fields, doc := docOf p.docs } =
      Packet.unfoldWith target { name := p.name, fields, doc := docOf p.docs } := by
    rw [Packet.unfoldWith, Packet.unfoldWith, sameFields]
  have renumbered : s.SameProtocols target { a.schema with nextGroup := g } := same
  obtain ⟨t', added', sameSchema⟩ := renumbered.addPacket samePacket added
  refine ⟨{ a with schema := t' }, ?_, sameSchema⟩
  refine bind_ok.mpr ⟨(fields, _), building_ok.mpr ⟨g, builds, rfl⟩, ?_⟩
  exact bind_ok.mpr ⟨(id, t'), added', rfl⟩

/-- The protocols of sound and counted declarations are added to both schemas. -/
theorem addProtocols_sound (meets : Lookup.Meets target names lookup) {ds : List ProtocolDecl}
    (sound : ∀ d ∈ ds, ∀ block ∈ d.flows, ∀ p ∈ block.packets, TypeSpec.SoundFields names p.fields)
    (counted : ∀ d ∈ ds, ∀ block ∈ d.flows, ∀ p ∈ block.packets, TypeSpec.CountedFields p.fields)
    {s s' : Schema} {a : Assembly} (same : MatchesAssembly target s a)
    (ran : ds.foldlM Schema.buildProtocol s = .ok s') :
    ∃ b, ds.foldlM (Assembly.addProtocol lookup) a = .ok b ∧ MatchesAssembly target s' b := by
  refine foldlM_related (R := MatchesAssembly target) (fun d inDs t t' c same ran => ?_) same ran
  obtain ⟨t₁, first, others⟩ := bind_ok.mp ran
  obtain ⟨schema, first', sameSchema⟩ := Schema.SameProtocols.addProtocol same first
  have related : MatchesAssembly target t₁ { c with schema } := sameSchema
  have packets (block : FlowSpec) (inFlows : block ∈ d.flows) (t t' : Schema) (c : Assembly)
      (same : MatchesAssembly target t c)
      (ran : block.packets.foldlM (Schema.buildPacket d.name block.flow) t = .ok t') :
      ∃ c', block.packets.foldlM (Assembly.addPacket lookup d.name block.flow) c = .ok c' ∧
        MatchesAssembly target t' c' :=
    foldlM_related (R := MatchesAssembly target) (fun p inBlock _ _ _ same ran =>
      addPacket_sound meets (sound d inDs block inFlows p inBlock)
        (counted d inDs block inFlows p inBlock) same ran) same ran
  obtain ⟨b, others', related'⟩ := foldlM_related packets related others
  exact ⟨b, bind_ok.mpr ⟨schema, first', others'⟩, related'⟩

end Sound

theorem solved_nodeTable {ds : List TypeDecl} {rank : String → Nat}
    (nodup : (ds.map (·.name)).Nodup) (ranked : (nodeTable ds).Ranked rank) :
    ∀ entry ∈ nodeTable ds, entry.2.unfoldWith (Shape.targetIn (nodeTable ds)) =
      Shape.targetIn (nodeTable ds) entry.1 := by
  intro entry member
  have found : (nodeTable ds).lookup entry.1 = some entry.2 :=
    lookup_of_mem (nodeTable_keys ds ▸ nodup) member
  exact (Shape.targetIn_eq ranked found).symm

/-- The types of sound declarations are built, and unfold to what the builder declares. -/
theorem buildsTypes_sound {ds : List TypeDecl} {rank : String → Nat}
    (nodup : (ds.map (·.name)).Nodup) (idents : ∀ d ∈ ds, d.HasIdents)
    (sound : ∀ d ∈ ds, d.type.Sound (ds.map (·.name))) (counted : ∀ d ∈ ds, d.type.Counted)
    (acyclic : (Mentions.ofDecls ds).Acyclic) (ranked : (nodeTable ds).Ranked rank) (g : Nat) :
    ∃ table g', BuildsTypes (ds.map (·.name)) ds [] g table g' ∧
      Refs.Solved (Shape.targetIn (nodeTable ds)) table ∧
      Shape.targetIn table = Shape.targetIn (nodeTable ds) := by
  have meet : ∀ d ∈ ds, d.Meets (Shape.targetIn (nodeTable ds)) (ds.map (·.name)) := by
    intro d member
    have meets := meets_nothing (Shape.targetIn (nodeTable ds)) (ds.map (·.name))
    obtain ⟨s, g', ofType, twins⟩ := sound_builds meets d.type (sound d member) (counted d member) g
    have toTarget := solved_nodeTable nodup ranked _ (List.mem_map.mpr ⟨d, member, rfl⟩)
    refine ⟨_, g, s, g', meets, ofType, ?_⟩
    rw [d.unfold_wrap, twins.unfold, ← d.unfold_wrap]
    exact toTarget
  obtain ⟨table, g', ofTypes, solved⟩ := buildsTypes_of_meets [] g meet
    (fun d member => List.mem_map.mpr ⟨d, member, rfl⟩) (List.forall_mem_nil _)
    (List.forall_mem_nil _)
  obtain ⟨rank', ordered⟩ :=
    exists_ordered nodup idents ofTypes (Mentions.check_of_acyclic acyclic)
  refine ⟨table, g', ofTypes, solved, ?_⟩
  refine Shape.targetIn_unique (ranked_of_ordered ordered)
    (fun label s found => (solved _ (mem_of_lookup found)).1) fun label missing => ?_
  have outside : (nodeTable ds).lookup label = none := by
    rw [lookup_none_iff, nodeTable_keys, ← ofTypes.keys]
    exact lookup_none_iff.mp missing
  simp only [Shape.targetIn, outside]

/-- The schema of sound declarations is the one that the builder makes. -/
theorem schemaOf_sound {items : List Item} (sound : SoundItems items)
    (counted : CountedItems items) (idents : ∀ d ∈ items.filterMap Item.type?, d.HasIdents) (g : Nat) :
    ∃ parsed built, schemaOf g items = .ok parsed ∧ Schema.build items = .ok built ∧
      parsed.unfolded = built.unfolded := by
  obtain ⟨types, fields, acyclic, typeNames, protocolNames, packetNames⟩ := sound
  obtain ⟨countedTypes, countedFields⟩ := counted
  generalize typesOf : items.filterMap Item.type? = ds at *
  generalize protocolsOf : items.filterMap Item.protocol? = ps at *
  obtain ⟨rank, ranked⟩ := ranked_nodeTable typeNames types countedTypes acyclic
  obtain ⟨table, g₁, ofTypes, solved, sameTarget⟩ :=
    buildsTypes_sound typeNames idents types countedTypes acyclic ranked g
  let start : Schema := { types := nodeTable ds, refs := nodeTable ds }
  have started : ds.foldlM Schema.buildType {} = .ok start :=
    buildTypes_ok (s := {}) typeNames fun _ _ => by simp
  obtain ⟨built, added⟩ := buildProtocols_ok (s := start) protocolNames packetNames
    fun _ _ => List.forall_mem_nil _
  obtain ⟨builtTypes, builtRefs⟩ := buildProtocols_kept added
  -- The packets are built with all types known.
  have meets : Lookup.Meets (Shape.targetIn (nodeTable ds)) (ds.map (·.name))
      (lookupIn (ds.map (·.name)) table.reverse) := by
    refine meets_lookupIn (fun entry member => ?_)
      fun entry member => solved entry (List.mem_reverse.mp member)
    exact ofTypes.keys ▸ List.mem_map.mpr ⟨entry, List.mem_reverse.mp member, rfl⟩
  obtain ⟨a, added', sameProtocols⟩ := addProtocols_sound meets fields countedFields
    (s := start) (a := Assembly.ofTypes table g₁) rfl added
  obtain ⟨parsedTypes, parsedRefs⟩ := addProtocols_kept added'
  refine ⟨a.schema, built, ?_, ?_, ?_⟩
  · rw [schemaOf_ok, typesOf, protocolsOf]
    exact ⟨typeNames, table, g₁, a, ofTypes, Mentions.check_of_acyclic acyclic, added', rfl⟩
  · rw [Schema.build, typesOf, protocolsOf, started]
    exact added
  · have sameTypes := (unfold_solved fun entry member => (solved entry member).1).trans <|
      (congrArg _ (ofTypes.keys.trans (nodeTable_keys ds).symm)).trans
        (unfold_solved (solved_nodeTable typeNames ranked)).symm
    have first : a.schema.unfolded = a.schema.unfoldWith (Shape.targetIn (nodeTable ds)) := by
      rw [Schema.unfolded, parsedRefs, ← sameTarget]
      rfl
    rw [first, Schema.unfolded, builtRefs, Schema.unfoldWith, Schema.unfoldWith, parsedTypes,
      builtTypes, ← sameProtocols]
    exact congrArg (Schema.mk · _ [] 0) sameTypes

end Source

/-- The text of sound and counted declarations describes the schema that the builder makes of them,
whatever stands between the tokens. -/
theorem Schema.parse_inverts_spelling {items : List Item} {text : String} (sound : SoundItems items)
    (counted : CountedItems items) (spells : Spells items text) : ∃ parsed built,
      Schema.parse text = .ok parsed ∧ Schema.build items = .ok built ∧
      parsed.unfolded = built.unfolded := by
  have read := parseAll_spelling spells
  obtain ⟨parsed, built, ofItems, builds, same⟩ :=
    schemaOf_sound sound counted (typeIdents_of_parseAll read) 1
  refine ⟨parsed, built, ?_, builds, same⟩
  rw [Schema.parse, Schema.parseFrom, read]
  exact ofItems

/-- Nothing else keeps the text of sound declarations from being read. -/
theorem Schema.parse_spelling_iff {items : List Item} {text : String} (sound : SoundItems items)
    (spells : Spells items text) :
    (∃ parsed, Schema.parse text = .ok parsed) ↔ CountedItems items := by
  constructor
  · rintro ⟨parsed, made⟩
    rw [Schema.parse, Schema.parseFrom, parseAll_spelling spells] at made
    exact counted_of_schemaOf made
  · intro counted
    obtain ⟨parsed, _, made, _⟩ := parse_inverts_spelling sound counted spells
    exact ⟨parsed, made⟩

/-- A type that is used before its declaration. -/
def forwardItems : List Item :=
  [.type { exported := false, name := "A", type := .optional (.named "B") },
    .type { exported := true, name := "B", type := .named "u8" }]

theorem sound_forwardItems : SoundItems forwardItems := by
  constructor
  case types =>
    intro d member
    rcases List.mem_cons.mp member with rfl | later
    · exact .inr (by decide)
    · cases List.mem_singleton.mp later
      exact .inl rfl
  case acyclic =>
    -- The only edge leads from the first type to the second.
    have edge (a b : String) (edge : (Mentions.ofDecls (forwardItems.filterMap Item.type?)).Edge a b) :
        a = "A" ∧ b = "B" := by
      obtain ⟨d, member, rfl, mentioned⟩ := mentions_of_edge edge
      rcases List.mem_cons.mp member with rfl | later
      · exact ⟨rfl, List.mem_singleton.mp mentioned⟩
      · cases List.mem_singleton.mp later
        cases mentioned
    intro name circle
    obtain ⟨_, first, _⟩ := Relation.TransGen.head'_iff.mp circle
    obtain ⟨_, _, last⟩ := Relation.TransGen.tail'_iff.mp circle
    rw [(edge _ _ first).1] at last
    exact absurd (edge _ _ last).2 (by decide)
  case typeNames => decide
  case protocolNames => decide
  case fields => exact List.forall_mem_nil _
  case packetNames => exact List.forall_mem_nil _

theorem counted_forwardItems : CountedItems forwardItems := by
  constructor
  case types =>
    intro d member
    rcases List.mem_cons.mp member with rfl | later
    · trivial
    · cases List.mem_singleton.mp later
      trivial
  case fields => exact List.forall_mem_nil _

theorem spells_forwardItems :
    Spells forwardItems "type A=optional< B>; //b\nexport B=u8;" := by
  refine ⟨[.name "type", .name "A", .mark "=", .name "optional", .mark "<", .name "B", .mark ">",
    .mark ";", .name "export", .name "B", .mark "=", .name "u8", .mark ";"], ?_, ?_⟩
  · refine ⟨_, _, ⟨[], _, ⟨_, rfl, rfl⟩, rfl⟩, ⟨_, _, ⟨[], _, rfl, rfl⟩, rfl, rfl⟩, rfl⟩
  · have blank : Gap [' '] := .blank rfl .none
    have comment : Gap [' ', '/', '/', 'b', '\n'] :=
      .blank rfl (@Gap.line ['b'] [] '\n' (by simp [Parser.isLineEnd]) (by decide) rfl .none)
    have word (s : String) (c : Char) (rest : List Char) (form : c :: rest = s.toList)
        (start : Parser.isIdentStart c = true) (more : rest.all Parser.isIdentRest = true) :
        Token.Spells (.name s) (c :: rest) :=
      ⟨form, c, rest, form.symm, start, List.all_eq_true.mp more⟩
    have mark (s : String) (c : Char) (form : [c] = s.toList) (known : s ∈ marks) :
        Token.Spells (.mark s) [c] := ⟨form, known⟩
    have apart {s : String} {stop : Char} {tail : List Char}
        (other : Parser.isIdentRest stop = false) : Token.Parts (.name s) (stop :: tail) := by
      rintro c ⟨⟩
      exact other
    -- From the last token to the first.
    have end₂ := Spelled.token .none (mark ";" ';' rfl (by decide)) trivial (.done (.closed .none))
    have type₂ := Spelled.token .none (word "u8" 'u' ['8'] rfl rfl rfl) (apart rfl) end₂
    have is₂ := Spelled.token .none (mark "=" '=' rfl (by decide)) trivial type₂
    have name₂ := Spelled.token blank (word "B" 'B' [] rfl rfl rfl) (apart rfl) is₂
    have export₂ := Spelled.token comment
      (word "export" 'e' ['x', 'p', 'o', 'r', 't'] rfl rfl rfl) (apart rfl) name₂
    have end₁ := Spelled.token .none (mark ";" ';' rfl (by decide)) trivial export₂
    have close₁ := Spelled.token .none (mark ">" '>' rfl (by decide)) trivial end₁
    have inner₁ := Spelled.token blank (word "B" 'B' [] rfl rfl rfl) (apart rfl) close₁
    have open₁ := Spelled.token .none (mark "<" '<' rfl (by decide)) trivial inner₁
    have optional₁ := Spelled.token .none
      (word "optional" 'o' ['p', 't', 'i', 'o', 'n', 'a', 'l'] rfl rfl rfl) (apart rfl) open₁
    have is₁ := Spelled.token .none (mark "=" '=' rfl (by decide)) trivial optional₁
    have name₁ := Spelled.token blank (word "A" 'A' [] rfl rfl rfl) (apart rfl) is₁
    exact Spelled.token .none (word "type" 't' ['y', 'p', 'e'] rfl rfl rfl) (apart rfl) name₁

theorem Schema.parse_inverts_spelling_forward : ∃ parsed built,
    Schema.parse "type A=optional< B>; //b\nexport B=u8;" = .ok parsed ∧
      Schema.build forwardItems = .ok built ∧ parsed.unfolded = built.unfolded :=
  Schema.parse_inverts_spelling sound_forwardItems counted_forwardItems spells_forwardItems

end WireSchema
