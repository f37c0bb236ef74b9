import WireSchema.Proofs.Generation.SameWire
import WireSchema.Proofs.Source.Assembling

/-!
# The order of declarations

Types may be declared in any order, before or after the protocols: whether a text describes a schema
does not depend on it, and neither does the wire format. A use before the declaration is a reference
and a use after it the type itself, but both unfold to the same.
-/

namespace WireSchema

/-! ### Packets of a schema -/

/-- Every packet of the schema satisfies `P`. -/
def Schema.AllPackets (P : Packet → Prop) (s : Schema) : Prop :=
  ∀ p ∈ s.protocols, ∀ flow, ∀ packet ∈ p.packets flow, P packet

namespace Schema.AllPackets

variable {P : Packet → Prop} {s t : Schema}

theorem addProtocol {name : String} (all : s.AllPackets P) (added : s.addProtocol name = .ok t) :
    t.AllPackets P := by
  unfold Schema.addProtocol at added
  split at added
  · cases added
  · cases added
    intro p member flow packet inFlow
    rcases List.mem_append.mp member with old | new
    · exact all p old flow packet inFlow
    · cases List.mem_singleton.mp new
      cases flow <;> cases inFlow

theorem addPacket {name : String} {flow : Flow} {packet : Packet} {id : Nat} (all : s.AllPackets P)
    (own : P packet) (added : s.addPacket name flow packet = .ok (id, t)) : t.AllPackets P := by
  unfold Schema.addPacket at added
  split at added
  case h_1 =>
    cases added
    exact all
  case h_2 p found =>
    have member : p ∈ s.protocols := List.mem_of_find?_eq_some found
    unfold Protocol.addPacket at added
    split at added
    · cases added
    · cases added
      intro q among flow' other inFlow
      obtain ⟨old, inside, same⟩ := List.mem_map.mp among
      split at same
      · subst same
        rw [Protocol.packets_append, List.mem_append] at inFlow
        rcases inFlow with early | new
        · exact all p member flow' other early
        · split at new
          · rw [List.mem_singleton.mp new]
            exact own
          · cases new
      · subst same
        exact all old inside flow' other inFlow

end Schema.AllPackets

namespace Source

variable {g g' : Nat} {types table : Refs} {rank : String → Nat} {bound : Nat} {lookup : Lookup}
  {names names' : List String} {items items' : List Item} {s : Schema}

/-- The packet has well-formed fields and no hooks. -/
def IsFormed (types : Refs) (rank : String → Nat) (bound : Nat) (p : Packet) : Prop :=
  (Shape.struct p.fields).WellFormed types rank bound ∧ p.decodeHook = none ∧ p.encodeHook = none

theorem allPackets_addPacket {P : Packet → Prop} {protocol : String} {flow : Flow} {a b : Assembly}
    {p : PacketSpec} (own : ∀ g fields g', Builds (TypeSpec.shapeFields lookup p.fields) g fields g' →
      P { name := p.name, fields, doc := docOf p.docs }) (all : a.schema.AllPackets P)
    (ran : a.addPacket lookup protocol flow p = .ok b) : b.schema.AllPackets P := by
  obtain ⟨⟨fields, a₁⟩, built, ran⟩ := bind_ok.mp ran
  obtain ⟨g, builds, rfl⟩ := building_ok.mp built
  obtain ⟨⟨id, schema⟩, added, same⟩ := bind_ok.mp ran
  cases same
  exact Schema.AllPackets.addPacket (s := { a.schema with nextGroup := g }) all (own _ _ _ builds)
    added

/-- The packets of the schema under construction have the property. -/
def Assembly.AllPackets (P : Packet → Prop) (a : Assembly) : Prop := a.schema.AllPackets P

/-- The packets of a text have what their fields are built with. -/
theorem allPackets_addProtocols {P : Packet → Prop} {ds : List ProtocolDecl} {a b : Assembly}
    (own : ∀ d ∈ ds, ∀ block ∈ d.flows, ∀ p ∈ block.packets, ∀ g fields g',
      Builds (TypeSpec.shapeFields lookup p.fields) g fields g' →
        P { name := p.name, fields, doc := docOf p.docs })
    (all : a.schema.AllPackets P) (ran : ds.foldlM (Assembly.addProtocol lookup) a = .ok b) :
    b.schema.AllPackets P := by
  refine foldlM_kept (P := Assembly.AllPackets P) (fun d inDs c c' all ran => ?_) all ran
  obtain ⟨schema, first, ran⟩ := bind_ok.mp ran
  have named : Assembly.AllPackets P { c with schema } := Schema.AllPackets.addProtocol all first
  refine foldlM_kept (P := Assembly.AllPackets P) (fun block inFlows c c' all ran => ?_) named ran
  refine foldlM_kept (P := Assembly.AllPackets P) (fun p inBlock c c' all ran => ?_) all ran
  exact allPackets_addPacket (own d inDs block inFlows p inBlock) all ran

/-- Once all types are known, a name stands for a well-formed type. -/
theorem formed_lookupIn (ordered : table.Ordered rank) (keys : table.map (·.1) = names)
    (mentioned : List String) :
    (lookupIn names table.reverse).Formed table rank table.length mentioned := by
  intro name _ x found
  rcases lookupIn_declared found with member | ⟨member, rfl⟩
  · have member : (name, x) ∈ table := List.mem_reverse.mp member
    obtain ⟨inner, form, _⟩ := ordered.shapes _ member
    have below := ordered.ranks _ member
    change x = .alias name inner ∨ x = .exported name inner at form
    rcases form with rfl | rfl
    · exact ⟨member, below⟩
    · exact ⟨member, below⟩
  · rw [← keys] at member
    obtain ⟨entry, inside, rfl⟩ := List.mem_map.mp member
    exact ⟨member, ordered.ranks _ inside⟩

/-- What a text describes is well formed. -/
theorem wellFormed_of_schemaOf (idents : ∀ d ∈ items, d.HasIdents)
    (made : schemaOf g items = .ok s) : ∃ rank, s.WellFormed rank := by
  obtain ⟨nodup, table, g₁, a, builds, checked, added, rfl⟩ := schemaOf_ok.mp made
  obtain ⟨rank, ordered⟩ := exists_ordered nodup (typeIdents idents) builds checked
  obtain ⟨types, refs⟩ := addProtocols_kept added
  have formed := formed_lookupIn ordered builds.keys
  have packets := allPackets_addProtocols (P := IsFormed table rank table.length)
    (a := Assembly.ofTypes table g₁) (fun d inDs block inFlows p inBlock g fields g' built =>
      ⟨shapeFields_wellFormed p.fields built (protocolIdents idents d inDs block inFlows p inBlock)
        (formed _), rfl, rfl⟩) (List.forall_mem_nil _) added
  refine ⟨rank, types.trans refs.symm, ?_, ?_⟩
  · rw [refs]
    exact ordered
  · rw [refs]
    exact packets

/-! ### Declarations in another order -/

/-- The second list has the declarations of the first, those of types in any order and at any
places. -/
structure Rearranged (items items' : List Item) : Prop where
  types : (items.filterMap Item.type?).Perm (items'.filterMap Item.type?)
  protocols : items.filterMap Item.protocol? = items'.filterMap Item.protocol?

theorem Rearranged.symm (moved : Rearranged items items') : Rearranged items' items :=
  ⟨moved.types.symm, moved.protocols.symm⟩

theorem Lookup.Meets.congr {target : String → Shape} (meets : Lookup.Meets target names lookup)
    (same : ∀ name, name ∈ names ↔ name ∈ names') : Lookup.Meets target names' lookup where
  finds name member := meets.finds name ((same name).mpr member)
  only name x found := (same name).mp (meets.only name x found)

/-- Declarations with ranks above those they mention are not reached from themselves. -/
theorem acyclic_of_rank {ds : List TypeDecl}
    (lower : ∀ d ∈ ds, ∀ m ∈ d.type.mentions, rank m < rank d.name) :
    (Mentions.ofDecls ds).Acyclic := by
  have falls (name other : String) (edge : (Mentions.ofDecls ds).Edge name other) :
      rank other < rank name := by
    obtain ⟨d, member, rfl, mentioned⟩ := mentions_of_edge edge
    exact lower d member other mentioned
  exact Mentions.acyclic_of_rank falls

/-- The packets are built with all types known. -/
theorem meets_types {target : String → Shape} (keys : table.map (·.1) = names)
    (solved : Refs.Solved target table) :
    Lookup.Meets target names (lookupIn names table.reverse) := by
  refine meets_lookupIn (fun entry member => ?_)
    fun entry member => solved entry (List.mem_reverse.mp member)
  exact keys ▸ List.mem_map.mpr ⟨entry, List.mem_reverse.mp member, rfl⟩

theorem sameProtocols_ofTypes (target : String → Shape) (table table' : Refs) (g g' : Nat) :
    (Assembly.ofTypes table g).schema.SameProtocols target (Assembly.ofTypes table' g').schema :=
  rfl

/-- Declarations in another order describe a schema as well, and it stands for the same. -/
theorem schemaOf_rearranged (moved : Rearranged items items') (idents : ∀ d ∈ items, d.HasIdents)
    (idents' : ∀ d ∈ items', d.HasIdents) (made : schemaOf g items = .ok s) :
    ∃ s', schemaOf g' items' = .ok s' ∧
      ∃ target rank rank', s.Counterparts target rank rank' s' := by
  obtain ⟨nodup, table, g₁, a, builds, checked, added, rfl⟩ := schemaOf_ok.mp made
  have declared := builds.declared (List.forall_mem_nil _)
    fun d member => List.mem_map.mpr ⟨d, member, rfl⟩
  obtain ⟨rank, ordered⟩ := exists_ordered nodup (typeIdents idents) builds checked
  have solved := solved_of_ordered ordered
  -- Each declaration meets the same target wherever it stands.
  have sameNames (name : String) := (moved.types.map (·.name)).mem_iff (a := name)
  have meet := builds.meets (List.forall_mem_nil _)
    (fun d member => List.mem_map.mpr ⟨d, member, rfl⟩) (List.forall_mem_nil _) solved
  have meet' : ∀ d ∈ items'.filterMap Item.type?, d.Meets (Shape.targetIn table)
      ((items'.filterMap Item.type?).map (·.name)) := by
    intro d member
    obtain ⟨lookup, h, x, h', meets, ofType, toTarget⟩ := meet d (moved.types.mem_iff.mpr member)
    exact ⟨lookup, h, x, h', meets.congr sameNames, ofType, toTarget⟩
  obtain ⟨table', g₁', builds', solved'⟩ := buildsTypes_of_meets [] g' meet'
    (fun d member => List.mem_map.mpr ⟨d, member, rfl⟩) (List.forall_mem_nil _)
    (List.forall_mem_nil _)
  -- No circle appears.
  obtain ⟨height, lower, _⟩ := exists_rank_of_check nodup declared checked
  have acyclic' : (Mentions.ofDecls (items'.filterMap Item.type?)).Acyclic :=
    acyclic_of_rank fun d member => lower d (moved.types.mem_iff.mpr member)
  -- The packets are built with types that unfold to the same.
  have meets := (meets_types builds.keys solved).congr sameNames
  obtain ⟨a', added', sameProtocols⟩ := addProtocols_meets meets
    (meets_types builds'.keys solved') (sameProtocols_ofTypes _ table table' g₁ g₁') added
  have made' : schemaOf g' items' = .ok a'.schema := by
    refine schemaOf_ok.mpr ⟨(moved.types.map _).nodup_iff.mp nodup, table', g₁', a', builds',
      Mentions.check_of_acyclic acyclic', ?_, rfl⟩
    rw [← moved.protocols]
    exact added'
  obtain ⟨_, refs⟩ := addProtocols_kept added
  obtain ⟨_, refs'⟩ := addProtocols_kept added'
  obtain ⟨rank, wf⟩ := wellFormed_of_schemaOf idents made
  obtain ⟨rank', wf'⟩ := wellFormed_of_schemaOf idents' made'
  refine ⟨a'.schema, made', Shape.targetIn table, rank, rank', ?_⟩
  constructor
  case wf => exact wf
  case wf' => exact wf'
  case targets =>
    rw [refs]
    exact fun entry member => (solved entry member).1
  case targets' =>
    rw [refs']
    exact fun entry member => (solved' entry member).1
  case names =>
    intro name
    rw [refs, refs']
    change name ∈ table.map (·.1) ↔ name ∈ table'.map (·.1)
    rw [builds.keys, builds'.keys]
    exact sameNames name
  case protocols => exact sameProtocols

end Source

open Source Ir Lowering

/-- Texts whose type declarations stand in different places are both accepted or both refused,
whatever their bit groups are numbered from; and unless codecs clash, their packets have the same
ids, write the same bytes and read the same values. -/
theorem Schema.order_of_declarations_is_immaterial {text text' : String} {items items' : List Item}
    (parsed : Item.parseAll? text = some items) (parsed' : Item.parseAll? text' = some items')
    (moved : Rearranged items items') (first first' : Nat) :
    ((∃ s, Schema.parseFrom first text = .ok s) ↔ ∃ s', Schema.parseFrom first' text' = .ok s') ∧
    ∀ s s', Schema.parseFrom first text = .ok s → Schema.parseFrom first' text' = .ok s' →
      s.refs.Separate → ∀ hooks g g', s.generate hooks = .ok g → s'.generate hooks = .ok g' →
        g.SameWire g' := by
  have idents := idents_of_parseAll parsed
  have idents' := idents_of_parseAll parsed'
  simp only [Schema.parseFrom, parsed, parsed']
  refine ⟨⟨fun ⟨s, made⟩ => ?_, fun ⟨s, made⟩ => ?_⟩, ?_⟩
  · obtain ⟨s', made', _⟩ := schemaOf_rearranged moved idents idents' made
    exact ⟨s', made'⟩
  · obtain ⟨s', made', _⟩ := schemaOf_rearranged moved.symm idents' idents made
    exact ⟨s', made'⟩
  · intro s s' made made' separate hooks g g' ran ran'
    obtain ⟨s'', same, target, rank, rank', pair⟩ := schemaOf_rearranged moved idents idents' made
    cases made'.symm.trans same
    exact pair.sameWire separate ran ran'

/-! ### Two texts -/

/-- The entry is an exported type under its own name. -/
def Refs.isExport : String × Shape → Bool
  | (name, .exported own _) => name == own
  | _ => false

theorem Refs.isExport_iff {name : String} {x : Shape} :
    Refs.isExport (name, x) = true ↔ ∃ inner, x = .exported name inner := by
  cases x with
  | exported own inner =>
    constructor
    · intro same
      exact ⟨inner, by rw [eq_of_beq same]⟩
    · rintro ⟨_, same⟩
      cases same
      exact beq_self_eq_true name
  | _ => simp [isExport]

theorem Refs.separate_iff {types : Refs} : types.Separate ↔
    ∀ e ∈ types, Refs.isExport e = true →
      readerName (codecBase e.1) ∉ types.map (·.1) ∧
      ∀ e' ∈ types, Refs.isExport e' = true →
        codecBase e.1 = codecBase e'.1 → e.1 = e'.1 := by
  constructor
  · rintro separate ⟨name, x⟩ member is
    obtain ⟨inner, rfl⟩ := Refs.isExport_iff.mp is
    refine ⟨separate.apart member, ?_⟩
    rintro ⟨name', x'⟩ member' is' same
    obtain ⟨inner', rfl⟩ := Refs.isExport_iff.mp is'
    exact separate.bases member member' same
  · intro all
    constructor
    case bases =>
      intro name name' inner inner' member member' same
      exact (all _ member (Refs.isExport_iff.mpr ⟨_, rfl⟩)).2 _ member'
        (Refs.isExport_iff.mpr ⟨_, rfl⟩) same
    case apart =>
      intro name inner member
      exact (all _ member (Refs.isExport_iff.mpr ⟨_, rfl⟩)).1

instance (types : Refs) : Decidable types.Separate := decidable_of_iff _ Refs.separate_iff.symm

/-- A type that is used before its declaration, which follows the packets. -/
def codecLast : String :=
  "type A=B; protocol p\x7bserverbound\x7bpacket q\x7ba:A;\x7d\x7d\x7d export B=u8;"

/-- The same declarations, with each type before its use. -/
def codecFirst : String :=
  "export B=u8; type A=B; protocol p\x7bserverbound\x7bpacket q\x7ba:A;\x7d\x7d\x7d"

def isCodecLast : List Item → Bool
  | [.type ⟨false, "A", .named "B"⟩,
      .protocol ⟨"p", [⟨.serverbound, [⟨[], "q", [⟨[], "a", .named "A"⟩]⟩]⟩]⟩,
      .type ⟨true, "B", .named "u8"⟩] => true
  | _ => false

def isCodecFirst : List Item → Bool
  | [.type ⟨true, "B", .named "u8"⟩, .type ⟨false, "A", .named "B"⟩,
      .protocol ⟨"p", [⟨.serverbound, [⟨[], "q", [⟨[], "a", .named "A"⟩]⟩]⟩]⟩] => true
  | _ => false

theorem rearranged_codec {items items' : List Item} (last : isCodecLast items = true)
    (early : isCodecFirst items' = true) : Rearranged items items' := by
  unfold isCodecLast at last
  unfold isCodecFirst at early
  split at last
  · split at early
    · exact ⟨List.Perm.swap _ _ _, rfl⟩
    · cases early
  · cases last

theorem exists_of_any {α : Type} {found : Option α} {p : α → Bool} (holds : found.any p = true) :
    ∃ a, found = some a ∧ p a = true := by
  cases found with
  | none => cases holds
  | some a => exact ⟨a, rfl, holds⟩

theorem exists_ok_of_any {ε α : Type} {result : Except ε α} {p : α → Bool}
    (holds : result.toOption.any p = true) : ∃ a, result = .ok a ∧ p a = true := by
  cases result with
  | error e => cases holds
  | ok a => exact ⟨a, rfl, holds⟩

set_option maxRecDepth 2000 in
theorem Schema.order_of_declarations_codec : ∃ s s' g g', Schema.parse codecLast = .ok s ∧
    Schema.parse codecFirst = .ok s' ∧ s.refs.Separate ∧ s.generate .none = .ok g ∧
    s'.generate .none = .ok g' ∧ g.SameWire g' := by
  have read : (Item.parseAll? codecLast).any isCodecLast = true := by decide +kernel
  have read' : (Item.parseAll? codecFirst).any isCodecFirst = true := by decide +kernel
  obtain ⟨items, parsed, last⟩ := exists_of_any read
  obtain ⟨items', parsed', early⟩ := exists_of_any read'
  let generates (s : Schema) : Bool := (s.generate .none).toOption.any fun _ => true
  have accepted : (Schema.parse codecLast).toOption.any
      (fun s => decide s.refs.Separate && generates s) = true := by decide +kernel
  have accepted' : (Schema.parse codecFirst).toOption.any generates = true := by decide +kernel
  obtain ⟨s, made, holds⟩ := exists_ok_of_any accepted
  obtain ⟨separate, generated⟩ := Bool.and_eq_true_iff.mp holds
  obtain ⟨g, ran, _⟩ := exists_ok_of_any generated
  obtain ⟨s', made', generated'⟩ := exists_ok_of_any accepted'
  obtain ⟨g', ran', _⟩ := exists_ok_of_any generated'
  have separate := of_decide_eq_true separate
  have same := order_of_declarations_is_immaterial parsed parsed' (rearranged_codec last early) 1 1
  exact ⟨s, s', g, g', made, made', separate, ran, ran',
    same.2 s s' made made' separate .none g g' ran ran'⟩

end WireSchema
