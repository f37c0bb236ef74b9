import WireSchema.Generate
import WireSchema.Proofs.Lookup
import WireSchema.Proofs.Session.Runs

/-!
# The units of generated code

Generation runs through the shared types, then through the packets of every flow of every protocol.
The units come out in the order of the schema: a protocol for each protocol, a flow for each flow
that has packets, and the packets with their positions as ids.
-/

namespace WireSchema

open Ir Lowering

/-- The results of a list of computations belong to its elements, one to one. -/
theorem Gen.forall₂_of_runs_mapM {α β : Type} {f : α → Gen β} {as : List α} {bs : List β}
    {σ τ : Session} (ran : Gen.Runs (as.mapM f) σ bs τ) :
    List.Forall₂ (fun a b => ∃ σ τ, Gen.Runs (f a) σ b τ) as bs := by
  induction as generalizing σ bs with
  | nil =>
    obtain ⟨rfl, _⟩ := Gen.runs_mapM_nil.mp ran
    exact .nil
  | cons a rest ih =>
    obtain ⟨b, σ₁, others, first, later, rfl⟩ := Gen.runs_mapM_cons.mp ran
    exact .cons ⟨σ, σ₁, first⟩ (ih later)

variable {hooks : Hooks}

/-- What generation runs through: the types, then the protocols. -/
theorem Schema.runs_generateUnits {s : Schema} {protocols : List Generated.Protocol}
    {σ τ : Session} :
    Gen.Runs (s.generateUnits hooks) σ protocols τ ↔ ∃ σ₁,
      Gen.Runs (s.types.forM fun entry => (emitter hooks (depthFor s.weight)).prepare entry.2) σ ()
        σ₁ ∧
      Gen.Runs (s.protocols.mapM
        (Generate.protocol hooks (emitter hooks (depthFor s.weight)))) σ₁ protocols τ := by
  constructor
  · intro ran
    obtain ⟨_, σ₁, first, second⟩ := Gen.runs_bind.mp ran
    exact ⟨σ₁, first, second⟩
  · rintro ⟨σ₁, first, second⟩
    exact Gen.runs_bind.mpr ⟨(), σ₁, first, second⟩

/-- The code of a schema is what the run leaves in the registry. -/
theorem generate_ok {s : Schema} {g : Generated} (ran : s.generate hooks = .ok g) :
    ∃ protocols τ, Gen.Runs (s.generateUnits hooks) s.session protocols τ ∧
      g.types = τ.registry.finished ∧ g.functions = τ.registry.functions ∧
      g.protocols = protocols.map fun p => { p with
        flows := p.flows.map (Generate.withImports (g.types.flatMap Generate.declaredNames)) } := by
  unfold Schema.generate at ran
  cases started : (s.generateUnits hooks).start s.session with
  | mk result τ =>
    rw [started] at ran
    cases result with
    | error e => cases ran
    | ok protocols =>
      cases ran
      exact ⟨protocols, τ, started, rfl, rfl, rfl⟩

/-! ### Ids and names -/

/-- The ids and names of packets, numbered from `start` on. -/
def Packet.numbered (packets : List Packet) (start : Nat) : List (Nat × String) :=
  (packets.zipIdx start).map fun (p, id) => (id, p.name)

namespace Generate

variable {em : Emitter} {σ τ : Session}

/-- A packet gets the id that is asked for, and keeps its name. -/
theorem tag_of_packet {id : Nat} {p : Packet} {q : Generated.Packet}
    (ran : Gen.Runs (packet hooks em id p) σ q τ) : (q.id, q.name) = (id, p.name) := by
  obtain ⟨_, ran, _⟩ := Gen.runs_withHint.mp ran
  simp only [Gen.runs_bind, Gen.runs_pure] at ran
  obtain ⟨fields, _, _, _, _, _, decode, _, _, _, _, _, this, _, _, body, _, _, rfl, _⟩ := ran
  rfl

/-- The packets of a flow are numbered in order. -/
theorem tags_of_packetsFrom {packets : List Packet} {handlers : List String} {start : Nat}
    {out : List Generated.Packet}
    (ran : Gen.Runs (packetsFrom hooks em handlers start packets) σ out τ) :
    out.map (fun q => (q.id, q.name)) = Packet.numbered packets start := by
  induction packets generalizing handlers start σ out with
  | nil =>
    obtain ⟨rfl, _⟩ := Gen.runs_pure.mp ran
    rfl
  | cons p rest ih =>
    simp only [packetsFrom, Gen.runs_bind, Gen.runs_pure] at ran
    obtain ⟨q, _, first, others, _, later, rfl, rfl⟩ := ran
    have tag := tag_of_packet first
    -- Another handler changes neither the id nor the name.
    have kept (handler : String) : (({ q with handler } : Generated.Packet).id,
        ({ q with handler } : Generated.Packet).name) = (start, p.name) := tag
    rw [List.map_cons, ih later, Packet.numbered, Packet.numbered, List.zipIdx_cons, List.map_cons]
    congr 1
    split
    · exact kept _
    · exact tag

/-- The flows of a protocol are those that have packets. -/
theorem forall₂_flows {p : Protocol} {out : List Generated.FlowUnit}
    (ran : Gen.Runs (flows hooks em p) σ out τ) :
    List.Forall₂ (fun flow f => f.flow = flow ∧
        f.packets.map (fun q => (q.id, q.name)) = Packet.numbered (p.packets flow) 0)
      (Flow.all.filter fun flow => !(p.packets flow).isEmpty) out := by
  refine (Gen.forall₂_of_runs_mapM ran).imp fun flow f made => ?_
  obtain ⟨σ, τ, ran⟩ := made
  simp only [onNewDraft, Gen.runs_bind, Gen.runs_updateDraft, Gen.runs_pure] at ran
  obtain ⟨_, _, _, packets, _, ran, rfl, _⟩ := ran
  exact ⟨rfl, tags_of_packetsFrom ran⟩

end Generate

/-- The generated protocol has the flows of the protocol that are not empty, with its packets in
order and their positions as ids. -/
structure Generated.Protocol.Numbers (p : WireSchema.Protocol) (q : Generated.Protocol) : Prop where
  name : q.name = p.name
  flows : List.Forall₂ (fun flow f => f.flow = flow ∧
      f.packets.map (fun x => (x.id, x.name)) = Packet.numbered (p.packets flow) 0)
    (Flow.all.filter fun flow => !(p.packets flow).isEmpty) q.flows

/-- Generation keeps the numbers of packets. -/
theorem Schema.numbers_of_generate {s : Schema} {g : Generated} (ran : s.generate hooks = .ok g) :
    List.Forall₂ Generated.Protocol.Numbers s.protocols g.protocols := by
  obtain ⟨protocols, τ, units, _, _, packed⟩ := generate_ok ran
  obtain ⟨σ, _, generated⟩ := Schema.runs_generateUnits.mp units
  rw [packed, List.forall₂_map_right_iff]
  refine (Gen.forall₂_of_runs_mapM generated).imp fun p q made => ?_
  obtain ⟨σ, τ, ran⟩ := made
  simp only [Generate.protocol, Gen.runs_bind, Gen.runs_pure] at ran
  obtain ⟨flows, _, ran, rfl, _⟩ := ran
  -- The imports that are added at the end concern neither flows nor packets.
  exact ⟨rfl, List.forall₂_map_right_iff.mpr (Generate.forall₂_flows ran)⟩

end WireSchema
