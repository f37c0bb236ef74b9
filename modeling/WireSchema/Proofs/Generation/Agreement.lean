import WireSchema.Proofs.Generation.Codecs

/-!
# Generated decoders read the layout

The packets and the codecs of a schema are decoded as the layout says, read directly from the shapes
without any code. Both succeed with the same value, having read equally many bytes, or both fail with
the same kind of error.

The strategy: the decoders of packets and codecs are fragments that read shapes, for the registry that
generation ends with. In the end the program serves all types, so fragments run as their reads do.
-/

namespace WireSchema

open Ir Wire Lowering Decoding

/-! ### Agreement -/

namespace Layout

/-- Reads a shape from bytes; gives the number of bytes read and the value. -/
def decode (order : ByteOrder) (refs : Refs) (s : Shape) (bytes : List UInt8) :
    Except DecodeError (Nat × Value) :=
  match (part order refs s).value.run (Reader.ofBytes bytes) with
  | (.ok v, reader) => .ok (reader.position, v)
  | (.error e, _) => .error e

/-- A count announces as many items as it is, and none if it is negative. Counts of 128 bits are seen
as negative from 2¹²⁷ on. -/
theorem itemCount_int (kind : IntKind) (b : BitVec kind.bits) : itemCount (.int kind b) =
    if kind = .u128 ∧ 2 ^ 127 ≤ b.toNat then 0 else (Value.number kind b).toNat := by
  have seen (b : BitVec 128) : b.toInt.toNat = if 2 ^ 127 ≤ b.toNat then 0 else b.toNat := by
    have bound := b.isLt
    rw [BitVec.toInt_eq_toNat_cond]
    split
    · rw [if_neg (by omega), Int.toNat_natCast]
    · rw [if_pos (by omega)]
      omega
  change (kind.view b).toNat = _
  cases kind with
  | u128 =>
    simp only [true_and]
    exact seen b
  | _ => rfl

/-- What code comes to is what the layout says, up to the details of errors. Code that fails in any
other way than by an error of decoding does not agree. -/
def Agrees (outcome : Except RunError (Nat × Value))
    (expected : Except DecodeError (Nat × Value)) : Prop :=
  match expected with
  | .ok out => outcome = .ok out
  | .error e => ∃ cause, outcome = .error (.decode cause) ∧ cause.outline = e.outline

end Layout

namespace Decoding

/-! ### Decoders in the end -/

namespace Scene

variable {S : Scene} {r : Registry} {g : Generated}

/-- Run by the program, decoders agree with the layout. -/
theorem Generates.agrees (generates : S.Generates r g) {bound : Nat} {s : Shape} {b : Block}
    (decoder : (S.below bound).IsDecoder r s b) (bytes : List UInt8) :
    Layout.Agrees (g.runDecoder S.order b bytes) (Layout.decode S.order S.types s bytes) := by
  obtain ⟨low, high, decodes⟩ := decoder
  have mirrors := decodes.run _ (generates.serves_program bound bytes.length)
    ⟨[], .input (.ofBytes bytes), []⟩ (.ofBytes bytes) rfl
  rw [runDecoder_eq, Layout.decode, S.part_eq]
  cases expected : (S.value s).run (.ofBytes bytes) with
  | mk result reader =>
    change Probe.Mirrors _ ((S.value s).run _) _ at mirrors
    rw [expected] at mirrors
    cases result with
    | error e =>
      obtain ⟨cause, ran, same⟩ := mirrors
      rw [ran]
      exact ⟨cause, rfl, same⟩
    | ok v =>
      obtain ⟨w, m, ran, stream, rfl⟩ := mirrors
      rw [ran]
      simp only [Layout.Agrees, stream, Stream.position]

end Scene

end Decoding

/-! ### Schemas -/

namespace Schema

variable {s : Schema} {rank : String → Nat} {hooks : Hooks} {g : Generated}

/-- The types of a schema, for bytes in some order. -/
def scene (wf : s.WellFormed rank) (separate : s.refs.Separate) (hooks : Hooks) (order : ByteOrder) :
    Scene :=
  { hooks, types := s.refs, rank, bound := s.refs.length, order, ordered := wf.ordered, separate }

/-- No struct of the schema is packed into 128 bits. -/
def Narrow (s : Schema) : Prop :=
  ∀ widths fields group, ¬ s.Meets (.packed .u128 widths fields group)

theorem Narrow.met (narrow : s.Narrow) {t : Shape} (meets : s.Meets t) : t.Narrow s.refs :=
  fun widths fields group reaches => narrow widths fields group (meets.further reaches)

/-- What is met on the way down from a packet is met in the schema. -/
theorem meets_of_reaches {p : Protocol} (inSchema : p ∈ s.protocols) {flow : Flow} {packet : Packet}
    (inFlow : packet ∈ p.packets flow) {t : Shape}
    (reaches : Shape.Reaches s.refs (.struct packet.fields) t) :
    t = .struct packet.fields ∨ s.Meets t := by
  rcases reaches.cases_head with same | ⟨part, member, further⟩
  · exact .inl same.symm
  · obtain ⟨f, among, rfl⟩ := List.mem_map.mp member
    exact .inr ((meets_field inSchema inFlow among).further further)

theorem Narrow.packet (narrow : s.Narrow) {p : Protocol} (inSchema : p ∈ s.protocols) {flow : Flow}
    {packet : Packet} (inFlow : packet ∈ p.packets flow) :
    (Shape.struct packet.fields).Narrow s.refs := by
  intro widths fields group reaches
  rcases meets_of_reaches inSchema inFlow reaches with same | meets
  · cases same
  · exact narrow widths fields group meets

/-- What generation makes of a schema: code of its types, and flows with code of its packets. -/
theorem generates_of_generate (wf : s.WellFormed rank) (separate : s.refs.Separate)
    (narrow : s.Narrow) (order : ByteOrder) (ran : s.generate hooks = .ok g) :
    ∃ r, (scene wf separate hooks order).Generates r g ∧
      List.Forall₂ (Generated.Protocol.HasFlows ((scene wf separate hooks order).IsFlow r))
        s.protocols g.protocols := by
  obtain ⟨protocols, τ, units, finished, _, packed⟩ := generate_ok ran
  obtain ⟨σ, prepared, generated⟩ := Schema.runs_generateUnits.mp units
  have generates : (scene wf separate hooks order).Generates τ.registry g := by
    refine ⟨complete_generateUnits wf separate units, finished, fun name inner member => ?_⟩
    have declared : (name, .exported name inner) ∈ s.types := wf.types ▸ member
    have meets : s.Meets (.exported name inner) := meets_type declared
    exact narrow.met (meets.further (.single (List.mem_singleton_self _)))
  refine ⟨τ.registry, generates, ?_⟩
  · have plain (p : Protocol) (member : p ∈ s.protocols) (flow : Flow) (packet : Packet)
        (inFlow : packet ∈ p.packets flow) : (scene wf separate hooks order).IsPlain packet := by
      obtain ⟨fields, decodeHook, encodeHook⟩ := wf.packets p member flow packet inFlow
      exact ⟨⟨fields, narrow.packet member inFlow⟩, decodeHook, encodeHook⟩
    rw [wf.types] at prepared
    obtain ⟨step, _⟩ := declared_prepareAll wf.ordered separate s.refs (fun _ member => member)
      prepared rfl
    have made := (Scene.leaves_mapM fun p member => Scene.leaves_protocol
      (fun name inner member _ => generates.told member) (plain p member)) σ protocols τ generated
      step.refs
    rw [packed, List.forall₂_map_right_iff]
    -- The imports that are added at the end concern no packets.
    refine (made.2 τ.registry fun _ _ known => known).imp fun p q same => ⟨same.name, ?_⟩
    rw [List.forall₂_map_right_iff]
    exact same.flows.imp fun flow f unit => ⟨unit.1, unit.2.numbered, unit.2.code⟩

/-- A packet is found by its position, and whatever the order of bytes its code is that of its fields.
-/
theorem code_of_packet (wf : s.WellFormed rank) (separate : s.refs.Separate) (narrow : s.Narrow)
    (ran : s.generate hooks = .ok g) {protocol : String} {flow : Flow} {p : Protocol}
    (found : s.protocols.find? (·.name == protocol) = some p) {k : Nat} {packet : Packet}
    (here : (p.packets flow)[k]? = some packet) :
    ∃ f q, g.flowOf protocol flow = .ok f ∧ (f.packets[k]? = some q ∧ f.packetById? k = some q) ∧
      ∀ order, ∃ r, (scene wf separate hooks order).Generates r g ∧
        (scene wf separate hooks order).IsFlow r (p.packets flow) f ∧
        (scene wf separate hooks order).IsCode r packet q := by
  have ordered (order : ByteOrder) : ∃ f q r, g.flowOf protocol flow = .ok f ∧
      f.packets[k]? = some q ∧ (scene wf separate hooks order).Generates r g ∧
        (scene wf separate hooks order).IsFlow r (p.packets flow) f ∧
        (scene wf separate hooks order).IsCode r packet q := by
    obtain ⟨r, generates, units⟩ := generates_of_generate wf separate narrow order ran
    rcases Generated.flowOf_of_flows units protocol flow with
      ⟨q, f, same, _, unit, made⟩ | ⟨empty, _⟩
    case inr =>
      rw [empty p found] at here
      cases here
    obtain rfl : p = q := Option.some.inj (found.symm.trans same)
    obtain ⟨inside, rfl⟩ := List.getElem?_eq_some_iff.mp here
    have inside' : k < f.packets.length := made.code.length_eq ▸ inside
    exact ⟨f, f.packets[k], r, unit, List.getElem?_eq_getElem inside', generates, made,
      made.code.get inside inside'⟩
  obtain ⟨f, q, r, unit, there, _, made, _⟩ := ordered .big
  refine ⟨f, q, unit, ⟨there, ?_⟩, fun order => ?_⟩
  · rw [← there]
    exact Generated.FlowUnit.packetById?_of_ids (Generated.FlowUnit.ids_of_numbered made.numbered) k
  · obtain ⟨f', q', r', unit', there', known⟩ := ordered order
    obtain rfl : f = f' := Except.ok.inj (unit.symm.trans unit')
    obtain rfl : q = q' := Option.some.inj (there.symm.trans there')
    exact ⟨r', known⟩

/-- An exported type has a codec, and whatever the order of bytes it is the code of the type. -/
theorem code_of_exported (wf : s.WellFormed rank) (separate : s.refs.Separate) (narrow : s.Narrow)
    (ran : s.generate hooks = .ok g) {name : String} {inner : Shape}
    (member : (name, .exported name inner) ∈ s.refs) :
    ∃ c, g.codec? (codecBase name) = some c ∧
      ∀ order, ∃ r, (scene wf separate hooks order).Generates r g ∧
        ((scene wf separate hooks order).below (rank name)).IsCodec r inner c := by
  obtain ⟨r, generates, _⟩ := generates_of_generate wf separate narrow .big ran
  obtain ⟨c, found, _⟩ := generates.codec member
  refine ⟨c, found, fun order => ?_⟩
  obtain ⟨r, generates, _⟩ := generates_of_generate wf separate narrow order ran
  obtain ⟨c', found', codec⟩ := generates.codec member
  obtain rfl : c = c' := Option.some.inj (found.symm.trans found')
  exact ⟨r, generates, codec⟩

/-- The code of the schema decodes as the layout says. -/
structure DecodesLikeLayout (s : Schema) (g : Generated) : Prop where
  packets : ∀ protocol flow p, s.protocols.find? (·.name == protocol) = some p →
    ∀ (k : Nat) packet, (p.packets flow)[k]? = some packet → ∀ order bytes,
      Layout.Agrees (g.decodePacket order protocol flow k bytes)
        (Layout.decodeFields order s.refs packet.fields bytes)
  codecs : ∀ name inner, (name, .exported name inner) ∈ s.refs →
    ∃ c, g.codec? (codecBase name) = some c ∧ ∀ order bytes,
      Layout.Agrees (g.runDecoder order c.decode bytes) (Layout.decode order s.refs inner bytes)

theorem WellFormed.decodesLikeLayout (wf : s.WellFormed rank) (separate : s.refs.Separate)
    (narrow : s.Narrow) (ran : s.generate hooks = .ok g) : s.DecodesLikeLayout g := by
  constructor
  case packets =>
    intro protocol flow p found k packet here order bytes
    obtain ⟨f, q, unit, ⟨_, picked⟩, code⟩ := code_of_packet wf separate narrow ran found here
    obtain ⟨r, generates, _, code⟩ := code order
    simp only [Generated.decodePacket, unit, bind, Except.bind, picked]
    exact generates.agrees code.decoder bytes
  case codecs =>
    intro name inner member
    obtain ⟨c, found, code⟩ := code_of_exported wf separate narrow ran member
    refine ⟨c, found, fun order bytes => ?_⟩
    obtain ⟨r, generates, codec⟩ := code order
    exact generates.agrees codec.decoder bytes

open Source in
/-- The code that is generated from a text decodes as the layout says: for all packets and exported
types, whatever the bytes and their order, both succeed with the same value and have read equally
many bytes, or both fail with the same kind of error. The names of codecs must be apart from each
other and from the names of types, and no struct may be packed into 128 bits. -/
theorem decoders_read_the_layout {firstGroup : Nat} {text : String}
    (accepted : parseFrom firstGroup text = .ok s) (ran : s.generate hooks = .ok g)
    (separate : s.refs.Separate) (narrow : s.Narrow) : s.DecodesLikeLayout g := by
  unfold parseFrom at accepted
  split at accepted
  · next items parsed =>
    obtain ⟨rank, wf⟩ := wellFormed_of_schemaOf (idents_of_parseAll parsed) accepted
    exact wf.decodesLikeLayout separate narrow ran
  · cases accepted

/-- Whether the test holds of the shapes of the schema, as far as some steps lead. -/
def allWithin (s : Schema) (test : Shape → Bool) (steps : Nat) : Bool :=
  (s.types.all fun entry => entry.2.allWithin s.refs test steps) &&
    s.protocols.all fun p => (p.serverbound ++ p.clientbound).all fun packet =>
      packet.fields.all fun f => f.shape.allWithin s.refs test steps

theorem holds_of_allWithin {test : Shape → Bool} {steps : Nat}
    (within : s.allWithin test steps = true) {t : Shape} (meets : s.Meets t) : test t = true := by
  simp only [allWithin, Bool.and_eq_true, List.all_eq_true] at within
  obtain ⟨root, reaches, own⟩ := meets
  have start : root.allWithin s.refs test steps = true → test t = true := fun whole =>
    Shape.holds_of_allWithin whole reaches
  refine start ?_
  rcases own with ⟨entry, member, rfl⟩ | ⟨p, inSchema, flow, packet, inFlow, f, among, rfl⟩
  · exact within.1 entry member
  · refine within.2 p inSchema packet ?_ f among
    cases flow with
    | serverbound => exact List.mem_append_left _ inFlow
    | clientbound => exact List.mem_append_right _ inFlow

theorem narrow_of_allWithin {steps : Nat} (within : s.allWithin Shape.isNarrow steps = true) :
    s.Narrow := by
  intro widths fields group meets
  cases holds_of_allWithin within meets

/-- Whether the schema has code without hooks. -/
def generates (s : Schema) : Bool := (s.generate .none).toOption.any fun _ => true

/-- A packet that calls the codec of a type behind an alias. -/
theorem decoders_read_the_layout_codec : ∃ s g, parseFrom 1 codecLast = .ok s ∧
    s.generate .none = .ok g ∧ s.DecodesLikeLayout g := by
  have read : (parseFrom 1 codecLast).toOption.any
      (fun s => decide s.refs.Separate && s.allWithin Shape.isNarrow 9 && s.generates) = true := by
    decide +kernel
  obtain ⟨s, accepted, holds⟩ := exists_ok_of_any read
  simp only [Bool.and_eq_true, decide_eq_true_eq] at holds
  obtain ⟨⟨separate, within⟩, generated⟩ := holds
  obtain ⟨g, ran, _⟩ := exists_ok_of_any generated
  exact ⟨s, g, accepted, ran,
    decoders_read_the_layout accepted ran separate (narrow_of_allWithin within)⟩

end Schema

end WireSchema
