import WireSchema.Proofs.Generation.Units
import WireSchema.Proofs.Lowering.Hygiene

/-!
# Generated code is hygienic

In the code of a schema without hooks every body is hygienic: those of the packets, and those of the
codecs that were declared on the way. The names that are printed find the same bindings as the
numbers do.
-/

namespace WireSchema

open Ir Lowering Gen

/-- Nothing of the packet is generated by a hook. -/
structure Packet.HookFree (types : Refs) (p : Packet) : Prop where
  decode : p.decodeHook = none
  encode : p.encodeHook = none
  fields : ∀ f ∈ p.fields, f.shape.HookFree types

/-- Nothing of the schema is generated by a hook. -/
structure Schema.HookFree (s : Schema) : Prop where
  types : ∀ entry ∈ s.types, entry.2.HookFree s.refs
  packets : ∀ p ∈ s.protocols, ∀ flow, ∀ packet ∈ p.packets flow, packet.HookFree s.refs

/-- Decoder and encoder of the packet are hygienic. -/
structure Generated.Packet.Hygienic (p : Generated.Packet) : Prop where
  decode : Stmt.Hygienic [] p.decode.body
  encode : Stmt.Hygienic [.fixed p.this] p.encode

/-- All bodies of the generated code are hygienic. -/
structure Generated.Hygienic (g : Generated) : Prop where
  packets : ∀ p ∈ g.protocols, ∀ f ∈ p.flows, ∀ packet ∈ f.packets, packet.Hygienic
  codecs : ∀ c, .codec c ∈ g.types → c.Hygienic

namespace Generate

variable {types : Refs} {hooks : Hooks} {em : Emitter}

theorem builds_packetDecoder (hygienic : em.Hygienic types) {p : Packet} (free : p.HookFree types)
    {name : String} :
    Builds types [] [] (packetDecoder hooks em p ⟨name, p.fields⟩) Yields := by
  rw [packetDecoder, free.decode]
  refine (hygienic.decodeBindings _ [] (Shape.hookFree_struct free.fields)).bind ?_
  rintro bindings visible _ _ ⟨rfl, bound⟩
  exact builds_pure ⟨rfl, scoped_structOf bound⟩

theorem builds_packetEncoder (hygienic : em.Hygienic types) {p : Packet} (free : p.HookFree types)
    {name : String} {this : Local} :
    Builds types [.fixed this] [] (packetEncoder hooks em p ⟨name, p.fields⟩ (.var this)) Done := by
  rw [packetEncoder, free.encode]
  exact hygienic.encodeFields _ _ _ (Shape.hookFree_struct free.fields)
    (Expr.scoped_var.mpr ⟨false, List.mem_cons_self⟩)

theorem keeps_packet (hygienic : em.Hygienic types) {id : Nat} {p : Packet}
    (free : p.HookFree types) :
    Keeps types (packet hooks em id p) Generated.Packet.Hygienic := by
  refine Keeps.withHint ?_
  refine (keeps_mapM (Q := fun _ => True) fun f member => ?_).bind fun fields _ => ?_
  · refine (hygienic.typeExpr f.shape ?_).withHint.bind fun _ _ => keeps_pure trivial
    exact free.fields f (List.mem_filter.mp member).1
  intro σ q τ ran fits
  simp only [runs_bind, runs_beginFunction, runs_pure] at ran
  obtain ⟨_, _, rfl, decode, σ₁, decoder, _, _, rfl, this, σ₂, begun, ⟨encode, u⟩, σ₃, encoder, rfl,
    rfl⟩ := ran
  obtain ⟨fits, decodes⟩ := (builds_packetDecoder hygienic free).hygienic_decoder decoder
    ⟨fits.refs, fits.codecs⟩ rfl
  obtain ⟨fits, encodes⟩ := Builds.hygienic_encoder (by simp) begun encoder
    (builds_packetEncoder hygienic free) fits
  exact ⟨fits, decodes, encodes⟩

theorem keeps_packetsFrom (hygienic : em.Hygienic types) {packets : List Packet}
    (free : ∀ p ∈ packets, p.HookFree types) (handlers : List String) (id : Nat) :
    Keeps types (packetsFrom hooks em handlers id packets)
      fun out => ∀ q ∈ out, q.Hygienic := by
  induction packets generalizing handlers id with
  | nil => exact keeps_pure nofun
  | cons p rest ih =>
    obtain ⟨first, others⟩ := List.forall_mem_cons.mp free
    refine (keeps_packet hygienic first).bind fun q clean => ?_
    refine (ih others _ _).bind fun out later => keeps_pure (List.forall_mem_cons.mpr ⟨?_, later⟩)
    -- Another handler changes neither body.
    split
    · exact ⟨clean.decode, clean.encode⟩
    · exact clean

theorem keeps_protocol (hygienic : em.Hygienic types) {p : Protocol}
    (free : ∀ flow, ∀ packet ∈ p.packets flow, packet.HookFree types) :
    Keeps types (protocol hooks em p)
      fun q => ∀ f ∈ q.flows, ∀ packet ∈ f.packets, packet.Hygienic := by
  have each : Keeps types (flows hooks em p) fun fs => ∀ f ∈ fs, ∀ q ∈ f.packets, q.Hygienic := by
    refine keeps_mapM fun flow _ => ?_
    have begins : Keeps types (Gen.updateDraft fun _ => {}) fun _ => True := by
      intro σ u τ ran fits
      cases runs_updateDraft.mp ran
      exact ⟨⟨fits.refs, fits.codecs⟩, trivial⟩
    refine begins.bind fun _ _ => ?_
    exact (keeps_packetsFrom hygienic (free flow) [] 0).bind fun packets clean => keeps_pure clean
  exact each.bind fun fs clean => keeps_pure clean

end Generate

/-- Whatever is generated without hooks is hygienic. -/
theorem Schema.generated_bodies_are_hygienic {hooks : Hooks} {s : Schema} {g : Generated}
    (free : s.HookFree) (ran : s.generate hooks = .ok g) : g.Hygienic := by
  have hygienic := hygienic_emitter hooks s.refs (depthFor s.weight)
  obtain ⟨protocols, τ, units, types, _, packed⟩ := generate_ok ran
  obtain ⟨σ, prepared, generated⟩ := Schema.runs_generateUnits.mp units
  -- The codecs of all types come first, then those of shapes that only packets have.
  obtain ⟨fits, _⟩ := keeps_forM
    (fun entry member => hygienic.prepare entry.2 (free.types entry member)) _ _ _ prepared
    ⟨rfl, nofun⟩
  obtain ⟨fits, clean⟩ := keeps_mapM
    (fun p member => Generate.keeps_protocol hygienic (free.packets p member)) _ _ _ generated fits
  constructor
  case codecs =>
    rw [types]
    exact fits.codecs
  case packets =>
    rw [packed]
    -- The imports that are added at the end concern no body.
    intro p member f flow
    obtain ⟨q, among, rfl⟩ := List.mem_map.mp member
    obtain ⟨f', among', rfl⟩ := List.mem_map.mp flow
    exact clean q among f' among'

/-- An exported type, and a packet with an optional list of it. Neither `value` nor `type` can be
the name of a binding. -/
def inventory : Schema where
  types := [("Item", item)]
  protocols := [{
    name := "game"
    serverbound := [{ name := "fill", fields := [⟨"type", stock, none⟩] }] }]
where
  item : Shape := .exported "Item" (.struct [⟨"value", .prim .u8, none⟩])
  stock : Shape := .optional (.list item .u8) (.prim .bool)

theorem hookFree_inventory : inventory.HookFree := by
  have item : inventory.item.HookFree [] := by
    refine Shape.hookFree_of_parts nofun (List.forall_mem_singleton.mpr ?_)
    exact Shape.hookFree_struct (List.forall_mem_singleton.mpr (Shape.hookFree_prim _))
  have stock : inventory.stock.HookFree [] := by
    refine Shape.hookFree_of_parts nofun (List.forall_mem_cons.mpr ⟨?_, ?_⟩)
    · exact Shape.hookFree_of_parts nofun (List.forall_mem_singleton.mpr item)
    · exact List.forall_mem_singleton.mpr (Shape.hookFree_prim _)
  refine ⟨List.forall_mem_singleton.mpr item, List.forall_mem_singleton.mpr fun flow => ?_⟩
  cases flow with
  | serverbound =>
    exact List.forall_mem_singleton.mpr ⟨rfl, rfl, List.forall_mem_singleton.mpr stock⟩
  | clientbound => exact nofun

set_option maxRecDepth 1000 in
theorem Schema.hygienic_inventory :
    inventory.HookFree ∧ ∃ g, inventory.generate .none = .ok g ∧ g.Hygienic := by
  have accepted : (inventory.generate .none).isOk = true := by decide +kernel
  cases ran : inventory.generate .none with
  | error e => cases ran ▸ accepted
  | ok g => exact ⟨hookFree_inventory, g, rfl, generated_bodies_are_hygienic hookFree_inventory ran⟩

end WireSchema
