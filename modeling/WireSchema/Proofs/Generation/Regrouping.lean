import WireSchema.Proofs.Generation.Completeness
import WireSchema.Proofs.Lowering.Regrouping

/-!
# Generation does not show the numbers of groups

A schema that a text describes generates the same code, or fails with the same error, when its bit
groups are numbered anew.
-/

namespace WireSchema

open Ir Lowering

/-- The packet with other numbers for its bit groups. -/
def Packet.regroup (ρ : Nat → Nat) (p : Packet) : Packet :=
  { p with fields := p.fields.map (Member.regroup ρ) }

/-- The protocol with other numbers for its bit groups. -/
def Protocol.regroup (ρ : Nat → Nat) (p : Protocol) : Protocol :=
  { p with
    serverbound := p.serverbound.map (Packet.regroup ρ)
    clientbound := p.clientbound.map (Packet.regroup ρ) }

/-- The schema with other numbers for its bit groups. -/
def Schema.regroup (ρ : Nat → Nat) (s : Schema) : Schema where
  types := Refs.regroup ρ s.types
  protocols := s.protocols.map (Protocol.regroup ρ)
  refs := s.refs.regroup ρ
  nextGroup := ρ s.nextGroup

variable {ρ : Nat → Nat} {types : Refs} {rank : String → Nat} {hooks : Hooks} {em : Emitter}

theorem Protocol.packets_regroup (p : Protocol) (flow : Flow) :
    (p.regroup ρ).packets flow = (p.packets flow).map (Packet.regroup ρ) := by
  cases flow <;> rfl

/-! ### Weight -/

theorem Refs.weight_regroup (refs : Refs) : (refs.regroup ρ).weight = refs.weight := by
  simp only [Refs.weight, Refs.regroup, List.map_map, Function.comp_def, Shape.weight_regroup]

theorem Packet.weight_regroup (p : Packet) : (p.regroup ρ).weight = p.weight := by
  simp only [Packet.weight, Packet.regroup, ← Shape.regroupFields_eq, Shape.weightFields_regroup]

theorem Schema.weight_regroup (s : Schema) : (s.regroup ρ).weight = s.weight := by
  have types := Refs.weight_regroup (ρ := ρ) s.types
  simp only [Refs.weight] at types
  simp only [Schema.weight, Schema.regroup, Protocol.regroup, types, Refs.weight_regroup,
    ← List.map_append, List.map_map, Function.comp_def, Packet.weight_regroup]

/-! ### Packets -/

namespace Generate

theorem sameRun_packet (stable : em.Stable ρ types rank) {bound : Nat} {p : Packet}
    (wf : (Shape.struct p.fields).WellFormed types rank bound) (plain : p.decodeHook = none)
    (plain' : p.encodeHook = none) (id : Nat) :
    SameRun ρ types [] (packet hooks em id p) (packet hooks em id (p.regroup ρ)) := by
  have fields : Shape.regroupFields ρ p.fields = p.fields.map (Member.regroup ρ) :=
    Shape.regroupFields_eq p.fields
  unfold packet
  refine Regroups.withHint ?_
  dsimp only [Packet.regroup]
  rw [Shape.filter_isStored_regroup]
  refine Regroups.step (sameRun_mapM_map fun f member => ?_) fun decls => ?_
  · have shape : f.shape.IsFieldShape types rank :=
      .inl ⟨bound, Shape.mem_wellFormedFields wf (List.mem_filter.mp member).1⟩
    exact (stable.typeExpr shape).withHint.step fun _ => regroups_pure rfl
  refine sameRun_beginFunction.step fun _ => ?_
  refine Regroups.step (Regroups.captureBlock ?_) fun decode => ?_
  · simp only [packetDecoder, plain, ← fields]
    exact (stable.decodeBindings wf).step fun _ => regroups_pure rfl
  refine sameRun_beginFunction.step fun _ => (sameRun_param _).step fun this => ?_
  refine Regroups.step (Regroups.capture ?_) fun encode => regroups_pure rfl
  simp only [packetEncoder, plain', ← fields]
  exact stable.encodeFields _ wf

theorem sameRun_packetsFrom (stable : em.Stable ρ types rank) {packets : List Packet} {bound : Nat}
    (wf : ∀ p ∈ packets, (Shape.struct p.fields).WellFormed types rank bound ∧
      p.decodeHook = none ∧ p.encodeHook = none) (handlers : List String) (id : Nat) :
    SameRun ρ types [] (packetsFrom hooks em handlers id packets)
      (packetsFrom hooks em handlers id (packets.map (Packet.regroup ρ))) := by
  induction packets generalizing handlers id with
  | nil => exact regroups_pure rfl
  | cons p rest ih =>
    obtain ⟨shape, plain, plain'⟩ := wf p (List.mem_cons_self ..)
    refine (sameRun_packet stable shape plain plain' id).step fun generated => ?_
    exact (ih (fun q later => wf q (List.mem_cons_of_mem _ later)) _ _).step fun others =>
      regroups_pure rfl

theorem sameRun_protocol (stable : em.Stable ρ types rank) {bound : Nat} {p : Protocol}
    (wf : ∀ flow, ∀ packet ∈ p.packets flow,
      (Shape.struct packet.fields).WellFormed types rank bound ∧
        packet.decodeHook = none ∧ packet.encodeHook = none) :
    SameRun ρ types [] (protocol hooks em p) (protocol hooks em (p.regroup ρ)) := by
  refine Regroups.step ?_ fun _ => regroups_pure rfl
  simp only [flows, Protocol.packets_regroup, List.isEmpty_map]
  refine sameRun_mapM fun flow _ => sameRun_newDraft.step fun _ => ?_
  exact (sameRun_packetsFrom stable (wf flow) [] 0).step fun _ => regroups_pure rfl

end Generate

/-! ### Schemas -/

theorem Schema.sameRun_generateUnits (injective : Function.Injective ρ) {s : Schema}
    (wf : s.WellFormed rank) :
    SameRun ρ s.refs [] (s.generateUnits hooks) ((s.regroup ρ).generateUnits hooks) := by
  have stable := stable_emitter hooks injective wf.ordered (depthFor s.weight)
  unfold generateUnits
  -- Both schemas weigh the same, so they are generated by emitters of the same depth.
  rw [Schema.weight_regroup]
  refine Regroups.step (sameRun_forM_map fun entry member => ?_) fun _ => ?_
  · rw [wf.types] at member
    exact stable.prepare (fieldShape_target wf.ordered (lookup_of_mem wf.ordered.nodup member))
  · exact sameRun_mapM_map fun p member => Generate.sameRun_protocol stable (wf.packets p member)

/-- The code does not show the numbers of groups. -/
theorem Schema.generate_regroup (injective : Function.Injective ρ) {s : Schema}
    (wf : s.WellFormed rank) : (s.regroup ρ).generate hooks = s.generate hooks := by
  have all : SameRun ρ s.refs [] (s.generateUnits hooks) ((s.regroup ρ).generateUnits hooks) :=
    sameRun_generateUnits injective wf
  have outcome := all s.session rfl rfl
  have started : (s.regroup ρ).session = s.session.regroup ρ := rfl
  -- Of the session at the end only the registry is used, which holds no groups.
  unfold generate
  rw [started]
  generalize (s.generateUnits hooks).start s.session = out,
    ((s.regroup ρ).generateUnits hooks).start (s.session.regroup ρ) = out' at outcome
  cases outcome with
  | ok refs groups same =>
    rw [same]
    rfl
  | error e t t' => rfl

end WireSchema
