import WireSchema.Proofs.Encoding.ReadBack
import WireSchema.Proofs.Generation.Agreement
import WireSchema.Proofs.Generation.Naming

/-!
# Values come back

What generated encoders write for the values of a schema is what the layout says, and generated
decoders read it back, whatever bytes follow.

The strategy: encoders are fragments that write what the layout says, and in the end the program
supplies all codecs, so they run. What is written can be told apart, since a decoder was generated for
it; so the layout reads it back, and decoders read like the layout.
-/

namespace WireSchema

open Ir Wire Lowering Decoding

/-- A value that is written as some bytes is encoded as these, and they are decoded as the value,
whatever follows. -/
def ComesBack (written : Value → List UInt8 → Prop) (encode : Value → Except RunError (List UInt8))
    (decode : List UInt8 → Except RunError (Nat × Value)) : Prop :=
  ∀ v bytes, written v bytes → encode v = .ok bytes ∧
    ∀ suffix, decode (bytes ++ suffix) = .ok (bytes.length, v)

namespace Decoding.Scene

variable {S : Scene} {r : Registry} {g : Generated} {s : Shape} {v : Value} {bytes : List UInt8}

/-- The layout reads back what it writes. -/
theorem decode_of_written (reversible : s.Reversible S.types S.rank)
    (written : Layout.Written S.order S.types s v bytes) (suffix : List UInt8) :
    Layout.decode S.order S.types s (bytes ++ suffix) = .ok (bytes.length, v) := by
  have labels (label : String) (t : Shape) (found : S.types.lookup label = some t) :
      S.target label = Layout.partWith S.order S.target t := by
    have behind : S.target label = Layout.part S.order S.types t := Layout.part_ref S.ordered found
    rw [S.part_eq t] at behind
    exact behind
  have taken : (S.value s).run (.ofBytes (bytes ++ suffix)) = (.ok v, ⟨suffix, 0 + bytes.length⟩) :=
    (Layout.takes_of_written S.ordered labels written reversible).whole suffix 0
  rw [Nat.zero_add] at taken
  rw [Layout.decode, S.part_eq]
  simp only [taken]

/-- Run by the program, encoders write what the layout says. -/
theorem Generates.writes (generates : S.Generates r g) {bound : Nat} {x : Local} {stmts : List Stmt}
    (encoder : (S.below bound).IsEncoder r s x stmts)
    (written : Layout.Written S.order S.types s v bytes) :
    g.runEncoder S.order x stmts v = .ok bytes := by
  obtain ⟨low, high, encodes⟩ := encoder
  have held : (Env.single x.id v).get? x.id = some v := (Env.get?_set _ _ _ _).trans (if_pos rfl)
  obtain ⟨m, ran, stream⟩ := encodes.run _ (generates.supplies_program bound v.size) v bytes written
    ⟨.single x.id v, .output [], []⟩ [] held rfl
  have ran' : (Run.execBlock (g.program S.order v.size 0) stmts).run
      { env := .single x.id v, stream := .output [] } = .ok ((), m) := ran
  simp only [Generated.runEncoder, ran', bind, Except.bind, pure, Except.pure, stream,
    Stream.written, List.append_nil, List.reverse_reverse]

/-- A decoder and an encoder of one shape, run by the program, give values back. -/
theorem Generates.comesBack (generates : S.Generates r g) {bound : Nat} {x : Local}
    {stmts : List Stmt} {b : Block} (decoder : (S.below bound).IsDecoder r s b)
    (encoder : (S.below bound).IsEncoder r s x stmts) (reversible : s.Reversible S.types S.rank) :
    ComesBack (Layout.Written S.order S.types s) (g.runEncoder S.order x stmts)
      (g.runDecoder S.order b) := by
  refine fun v bytes written => ⟨generates.writes encoder written, fun suffix => ?_⟩
  have agrees := generates.agrees decoder (bytes ++ suffix)
  rwa [decode_of_written reversible written] at agrees

end Decoding.Scene

/-! ### Schemas -/

namespace Schema

variable {s : Schema} {rank : String → Nat} {hooks : Hooks} {g : Generated}

/-- No shape of the schema takes all the bytes there are, and no two flags of a struct have bits in
common. -/
def Separable (s : Schema) : Prop := ∀ t, s.Meets t → t.IsSeparable

/-- Values come back through the code of the schema: of all packets, found by their positions, and
also by their names unless a packet before is found under the name; and of all exported types. -/
structure KeepsValues (s : Schema) (g : Generated) : Prop where
  packets : ∀ protocol flow p, s.protocols.find? (·.name == protocol) = some p →
    ∀ (k : Nat) packet, (p.packets flow)[k]? = some packet →
      ∃ f q, g.flowOf protocol flow = .ok f ∧ f.packetById? k = some q ∧ ∀ order,
        ComesBack (Layout.Written order s.refs (.struct packet.fields))
          (g.runEncoder order q.this q.encode) (g.decodePacket order protocol flow k)
  named : ∀ protocol flow p, s.protocols.find? (·.name == protocol) = some p →
    ∀ (k : Nat) packet, (p.packets flow)[k]? = some packet →
      (∀ other ∈ (p.packets flow).take k,
        other.name ≠ packet.name ∧ Naming.typeName other.name ≠ packet.name) → ∀ order,
        ComesBack (Layout.Written order s.refs (.struct packet.fields))
          (g.encodePacket order protocol flow packet.name) (g.decodePacket order protocol flow k)
  codecs : ∀ name inner, (name, .exported name inner) ∈ s.refs →
    ∃ c, g.codec? (codecBase name) = some c ∧ ∀ order,
      ComesBack (Layout.Written order s.refs inner) (g.encodeType order (codecBase name))
        (g.runDecoder order c.decode)

theorem WellFormed.reversible_packet (wf : s.WellFormed rank) (separable : s.Separable)
    {p : Protocol} (inSchema : p ∈ s.protocols) {flow : Flow} {packet : Packet}
    (inFlow : packet ∈ p.packets flow) (told : (Shape.struct packet.fields).IsTold s.refs) :
    (Shape.struct packet.fields).Reversible s.refs rank := by
  refine ⟨⟨_, (wf.packets p inSchema flow packet inFlow).1⟩, told, fun t reaches => ?_⟩
  rcases meets_of_reaches inSchema inFlow reaches with rfl | meets
  · exact trivial
  · exact separable t meets

theorem WellFormed.reversible_exported (wf : s.WellFormed rank) (separable : s.Separable)
    {name : String} {inner : Shape} (member : (name, .exported name inner) ∈ s.refs)
    (told : inner.IsTold s.refs) : inner.Reversible s.refs rank := by
  refine ⟨⟨_, wf.ordered.inner_exported member⟩, told, fun t reaches => ?_⟩
  have declared : (name, .exported name inner) ∈ s.types := wf.types ▸ member
  have meets : s.Meets (.exported name inner) := meets_type declared
  exact separable t (meets.further (.head List.mem_cons_self reaches))

/-- A packet is found under its name where none before it has the name, be it as its own or as that of
its struct. -/
theorem packetByName?_of_clear {S : Scene} {r : Registry} {packets : List Packet}
    {f : Generated.FlowUnit} (made : S.IsFlow r packets f) (named : Generate.Named [] f.packets)
    {k : Nat} {packet : Packet} (here : packets[k]? = some packet) {q : Generated.Packet}
    (there : f.packets[k]? = some q)
    (clear : ∀ other ∈ packets.take k,
      other.name ≠ packet.name ∧ Naming.typeName other.name ≠ packet.name) :
    f.packetByName? packet.name = some q := by
  have names := Generated.FlowUnit.names_of_numbered made.numbered
  have own : q.name = packet.name := by
    have both := congrArg (·[k]?) names
    simpa [here, there] using both
  have before : ∀ other ∈ f.packets.take k,
      other.name ≠ q.name ∧ Naming.typeName other.name ≠ q.name := by
    intro other member
    have among : other.name ∈ (packets.take k).map (·.name) := by
      rw [List.map_take, ← names, ← List.map_take]
      exact List.mem_map_of_mem member
    obtain ⟨twin, member', same⟩ := List.mem_map.mp among
    rw [own, ← same]
    exact clear twin member'
  obtain ⟨inside, rfl⟩ := List.getElem?_eq_some_iff.mp there
  have split : f.packets = f.packets.take k ++ f.packets[k] :: f.packets.drop (k + 1) := by
    rw [← List.drop_eq_getElem_cons inside, List.take_append_drop]
  rw [← own]
  exact (Generated.FlowUnit.packetByName?_iff named split fun other member =>
    (before other member).1).mpr fun other member => (before other member).2

theorem WellFormed.keepsValues (wf : s.WellFormed rank) (separate : s.refs.Separate)
    (narrow : s.Narrow) (separable : s.Separable) (ran : s.generate hooks = .ok g) :
    s.KeepsValues g := by
  have packets (protocol : String) (flow : Flow) (p : Protocol)
      (found : s.protocols.find? (·.name == protocol) = some p) (k : Nat) (packet : Packet)
      (here : (p.packets flow)[k]? = some packet) :
      ∃ f q, g.flowOf protocol flow = .ok f ∧ f.packetById? k = some q ∧
        ((∀ other ∈ (p.packets flow).take k,
          other.name ≠ packet.name ∧ Naming.typeName other.name ≠ packet.name) →
            f.packetByName? packet.name = some q) ∧
        ∀ order, ComesBack (Layout.Written order s.refs (.struct packet.fields))
          (g.runEncoder order q.this q.encode) (g.decodePacket order protocol flow k) := by
    obtain ⟨f, q, unit, ⟨there, picked⟩, code⟩ := code_of_packet wf separate narrow ran found here
    refine ⟨f, q, unit, picked, ?_, fun order => ?_⟩
    · obtain ⟨unitOf, inUnits, inFlows⟩ := Generated.mem_of_flowOf unit
      obtain ⟨_, _, made, _⟩ := code .big
      exact packetByName?_of_clear made (named_of_generate ran unitOf inUnits f inFlows) here there
    · obtain ⟨r, generates, _, code⟩ := code order
      have reversible := wf.reversible_packet separable (List.mem_of_find?_eq_some found)
        (List.mem_of_getElem? here) code.told
      have decoder : g.decodePacket order protocol flow k = g.runDecoder order q.decode := by
        funext bytes
        simp only [Generated.decodePacket, unit, bind, Except.bind, picked]
      rw [decoder]
      exact generates.comesBack code.decoder code.encoder reversible
  constructor
  case packets =>
    intro protocol flow p found k packet here
    obtain ⟨f, q, unit, picked, _, back⟩ := packets protocol flow p found k packet here
    exact ⟨f, q, unit, picked, back⟩
  case named =>
    intro protocol flow p found k packet here clear order
    obtain ⟨f, q, unit, _, named, back⟩ := packets protocol flow p found k packet here
    have encoder : g.encodePacket order protocol flow packet.name =
        g.runEncoder order q.this q.encode := by
      funext v
      simp only [Generated.encodePacket, unit, bind, Except.bind, named clear]
    rw [encoder]
    exact back order
  case codecs =>
    intro name inner member
    obtain ⟨c, found, code⟩ := code_of_exported wf separate narrow ran member
    refine ⟨c, found, fun order => ?_⟩
    obtain ⟨r, generates, codec⟩ := code order
    have encoder : g.encodeType order (codecBase name) = g.runEncoder order c.value c.encode := by
      funext v
      simp only [Generated.encodeType, found]
    rw [encoder]
    exact generates.comesBack codec.decoder codec.encoder
      (wf.reversible_exported separable member (generates.told member))

open Source in
/-- Values come back through the code that is generated from a text: for all packets and exported
types, in both orders of bytes, encoding a value succeeds, and decoding what was written gives the
value and takes exactly what was written, whatever follows. Besides the conditions under which
decoders read the layout, no shape takes all the bytes there are and flags have no bits in common. -/
theorem values_come_back {firstGroup : Nat} {text : String}
    (accepted : parseFrom firstGroup text = .ok s) (ran : s.generate hooks = .ok g)
    (separate : s.refs.Separate) (narrow : s.Narrow) (separable : s.Separable) : s.KeepsValues g := by
  unfold parseFrom at accepted
  split at accepted
  · next items parsed =>
    obtain ⟨rank, wf⟩ := wellFormed_of_schemaOf (idents_of_parseAll parsed) accepted
    exact wf.keepsValues separate narrow separable ran
  · cases accepted

theorem separable_of_allWithin {steps : Nat}
    (within : s.allWithin (fun t => decide t.IsSeparable) steps = true) : s.Separable :=
  fun _ meets => of_decide_eq_true (holds_of_allWithin within meets)

/-- A text with flags, variants that a codec tells apart, optional values and lists. -/
def mixed : String :=
  "export K=enum<u8>\x7ba,b\x7d; protocol p\x7bserverbound\x7bpacket q\x7bf:flags<u8>\x7bx=1,y=6\x7d;" ++
    "u:union<t:K>\x7ba=>\x7bn:optional<u16>;\x7d,b=>\x7b\x7d\x7d;l:list<K>;\x7d\x7d\x7d"

theorem values_come_back_mixed : ∃ s g, parseFrom 1 mixed = .ok s ∧
    s.generate .none = .ok g ∧ s.KeepsValues g := by
  have read : (parseFrom 1 mixed).toOption.any (fun s => decide s.refs.Separate &&
      s.allWithin Shape.isNarrow 9 && s.allWithin (fun t => decide t.IsSeparable) 9 &&
        s.generates) = true := by
    decide +kernel
  obtain ⟨s, accepted, holds⟩ := exists_ok_of_any read
  simp only [Bool.and_eq_true, decide_eq_true_eq] at holds
  obtain ⟨⟨⟨separate, narrow⟩, separable⟩, generated⟩ := holds
  obtain ⟨g, ran, _⟩ := exists_ok_of_any generated
  exact ⟨s, g, accepted, ran, values_come_back accepted ran separate (narrow_of_allWithin narrow)
    (separable_of_allWithin separable)⟩

end Schema

end WireSchema
