import WireSchema.Proofs.Generation.Twins

/-!
# The same wire format

Modules of generated code have one wire format if their packets have the same ids and names, write
the same bytes for every value, and read the same value from all bytes; where they fail, the errors
are of one kind. The code of schemas that stand for the same has one wire format.
-/

namespace WireSchema

open Ir Lowering Document

namespace Generated

variable (g g' : Generated)

/-- The packets have one id and one name, and read and write the same. -/
structure Packet.SameWire (p p' : Packet) : Prop where
  id : p'.id = p.id
  name : p'.name = p.name
  typeName : p'.typeName = p.typeName
  encode : ∀ order v, (g.runEncoder order p.this p.encode v).mapError runErrorKind =
    (g'.runEncoder order p'.this p'.encode v).mapError runErrorKind
  decode : ∀ order bytes, (g.runDecoder order p.decode bytes).mapError runErrorKind =
    (g'.runDecoder order p'.decode bytes).mapError runErrorKind

structure FlowUnit.SameWire (f f' : FlowUnit) : Prop where
  flow : f'.flow = f.flow
  packets : List.Forall₂ (Packet.SameWire g g') f.packets f'.packets

structure Protocol.SameWire (p p' : Protocol) : Prop where
  name : p'.name = p.name
  flows : List.Forall₂ (FlowUnit.SameWire g g') p.flows p'.flows

/-- The modules have the same protocols with the same packets. -/
def SameWire : Prop := List.Forall₂ (Protocol.SameWire g g') g.protocols g'.protocols

end Generated

/-! ### Packets by id and by name -/

namespace Generated.SameWire

variable {g g' : Generated}

/-- The packets of a flow, if there is one. -/
theorem flowOf (same : g.SameWire g') (protocol : String) (flow : Flow) :
    (∃ f f', g.flowOf protocol flow = .ok f ∧ g'.flowOf protocol flow = .ok f' ∧
      f.SameWire g g' f') ∨
    ∃ e, g.flowOf protocol flow = .error e ∧ g'.flowOf protocol flow = .error e := by
  have first : Option.Rel (Protocol.SameWire g g') (g.protocol? protocol)
      (g'.protocol? protocol) := rel_find? same fun p p' alike => by rw [alike.name]
  unfold Generated.flowOf
  generalize g.protocol? protocol = p, g'.protocol? protocol = p' at first ⊢
  cases first with
  | none => exact .inr ⟨_, rfl, rfl⟩
  | @some p p' alike =>
    have second : Option.Rel (FlowUnit.SameWire g g') (p.flow? flow) (p'.flow? flow) :=
      rel_find? alike.flows fun f f' same => by rw [same.flow]
    simp only [Option.bind_some]
    generalize p.flow? flow = f, p'.flow? flow = f' at second ⊢
    cases second with
    | none => exact .inr ⟨_, rfl, rfl⟩
    | @some f f' same => exact .inl ⟨f, f', rfl, rfl, same⟩

/-- A packet with a name writes the same bytes, or fails with the same kind of error. -/
theorem encodePacket (same : g.SameWire g') (order : Wire.ByteOrder) (protocol : String)
    (flow : Flow) (name : String) (v : Value) :
    (g.encodePacket order protocol flow name v).mapError runErrorKind =
      (g'.encodePacket order protocol flow name v).mapError runErrorKind := by
  unfold Generated.encodePacket
  rcases same.flowOf protocol flow with ⟨f, f', found, found', alike⟩ | ⟨e, missed, missed'⟩
  · rw [found, found']
    have packets : Option.Rel (Packet.SameWire g g') (f.packetByName? name)
        (f'.packetByName? name) := rel_find? alike.packets fun p p' same => by
      rw [same.name, same.typeName]
    simp only [bind, Except.bind]
    generalize f.packetByName? name = p, f'.packetByName? name = p' at packets ⊢
    cases packets with
    | none => rfl
    | some same => exact same.encode order v
  · rw [missed, missed']
    rfl

/-- A packet with an id reads the same, or fails with the same kind of error. -/
theorem decodePacket (same : g.SameWire g') (order : Wire.ByteOrder) (protocol : String)
    (flow : Flow) (id : Int) (bytes : List UInt8) :
    (g.decodePacket order protocol flow id bytes).mapError runErrorKind =
      (g'.decodePacket order protocol flow id bytes).mapError runErrorKind := by
  unfold Generated.decodePacket
  rcases same.flowOf protocol flow with ⟨f, f', found, found', alike⟩ | ⟨e, missed, missed'⟩
  · rw [found, found']
    have packets : Option.Rel (Packet.SameWire g g') (f.packetById? id) (f'.packetById? id) :=
      rel_find? alike.packets fun p p' same => by rw [same.id]
    simp only [bind, Except.bind]
    generalize f.packetById? id = p, f'.packetById? id = p' at packets ⊢
    cases packets with
    | none => rfl
    | some same => exact same.decode order bytes
  · rw [missed, missed']
    rfl

end Generated.SameWire

/-! ### Counterparts -/

/-- Elements with one image are related, if they are in the lists. -/
theorem forall₂_of_map_eq {α β : Type} {f : α → β} {R : α → α → Prop} : ∀ {as bs : List α},
    as.map f = bs.map f → (∀ a ∈ as, ∀ b ∈ bs, f a = f b → R a b) → List.Forall₂ R as bs
  | [], [], _, _ => .nil
  | [], _ :: _, same, _ => by cases same
  | _ :: _, [], same, _ => by cases same
  | a :: as, b :: bs, same, related => by
    obtain ⟨first, others⟩ := List.cons.inj same
    refine .cons (related a (List.mem_cons_self ..) b (List.mem_cons_self ..) first) ?_
    exact forall₂_of_map_eq others fun a here b there =>
      related a (List.mem_cons_of_mem _ here) b (List.mem_cons_of_mem _ there)

namespace Schema.Generation

variable {hooks : Hooks} {target : String → Shape} {rank rank' : String → Nat} {s s' : Schema}
  {r r' : Registry} {g g' : Generated}

/-- Any codec may be called by a packet. -/
def packetSides (generation : Generation hooks target rank rank' s s' r r' g g') : Sides :=
  generation.sides s.refs.length s.refs.exportedNames.card fun _ inner member _ =>
    Refs.level_lt_card ((Refs.mem_exportedNames generation.pair.wf.ordered).mpr ⟨inner, member⟩)

theorem paired (generation : Generation hooks target rank rank' s s' r r' g g') :
    List.Forall₂ generation.packetSides.Protocols s.protocols s'.protocols := by
  refine forall₂_of_map_eq generation.pair.protocols fun p member p' member' same => ?_
  refine ⟨(congrArg Protocol.name same).symm, fun flow => ?_⟩
  have packets : (p.packets flow).map (·.unfoldWith target) =
      (p'.packets flow).map (·.unfoldWith target) := by
    rw [← Protocol.packets_unfoldWith, same, Protocol.packets_unfoldWith]
  refine forall₂_of_map_eq packets fun q inFlow q' inFlow' sameQ => ?_
  obtain ⟨fields, plain⟩ := generation.pair.wf.packets p member flow q inFlow
  obtain ⟨fields', plain'⟩ := generation.pair.wf'.packets p' member' flow q' inFlow'
  refine ⟨(congrArg Packet.name sameQ).symm, ⟨fields, ⟨_, fields'⟩, ?_⟩, plain, plain'⟩
  exact congrArg Shape.struct (congrArg Packet.fields sameQ)

/-- Packets that are equal up to names have one wire format. -/
theorem sameWire (generation : Generation hooks target rank rank' s s' r r' g g')
    {p p' : Generated.Packet}
    (alike : p.Alike generation.packetSides.may ⟨r, r'⟩ p') : p.SameWire g g' p' := by
  have admits := generation.admits s.refs.exportedNames.card
  refine ⟨alike.id, alike.name, alike.typeName, fun order v => ?_, fun order bytes => ?_⟩
  · rw [alike.this]
    exact generation.twins.runEncoder order (alike.encode _ _ admits) p.this v
  · exact generation.twins.runDecoder order (alike.decode _ _ admits) bytes

end Schema.Generation

/-- The code of schemas that stand for the same has one wire format, unless codecs clash. -/
theorem Schema.Counterparts.sameWire {hooks : Hooks} {target : String → Shape}
    {rank rank' : String → Nat} {s s' : Schema} (pair : Counterparts target rank rank' s s')
    (separate : s.refs.Separate) {g g' : Generated} (ran : s.generate hooks = .ok g)
    (ran' : s'.generate hooks = .ok g') : g.SameWire g' := by
  obtain ⟨protocols, τ, units, finished, functions, packed⟩ := generate_ok ran
  obtain ⟨protocols', τ', units', finished', functions', packed'⟩ := generate_ok ran'
  have generation : Generation hooks target rank rank' s s' τ.registry τ'.registry g g' :=
    { pair, separate, finished, finished', functions, functions'
      complete := complete_generateUnits pair.wf separate units
      complete' := complete_generateUnits pair.wf' (pair.separate' separate) units' }
  have alike := Sides.alike_protocols generation.packetSides rfl rfl pair.wf.types pair.wf'.types
    generation.paired units units'
  unfold Generated.SameWire
  rw [packed, packed', List.forall₂_map_left_iff, List.forall₂_map_right_iff]
  refine alike.imp fun p p' both => ⟨both.name, ?_⟩
  dsimp only
  rw [List.forall₂_map_left_iff, List.forall₂_map_right_iff]
  refine both.flows.imp fun f f' both => ⟨both.flow, ?_⟩
  exact both.packets.imp fun q q' both => generation.sameWire both

end WireSchema
