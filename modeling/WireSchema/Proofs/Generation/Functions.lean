import WireSchema.Proofs.Encoding.Apart
import WireSchema.Proofs.Encoding.Shapes
import WireSchema.Proofs.Generation.Completeness
import WireSchema.Proofs.Generation.Numbering

/-!
# Functions of generated code

Every packet comes out of a run of the generator: a decoder that is a fragment that reads its fields,
and an encoder that is one that writes them, for whatever registry generation ends with. The flows
and protocols keep the packets in their places.
-/

namespace WireSchema

open Ir Wire Lowering Decoding

namespace Decoding

namespace Scene

variable {S : Scene} {r : Registry}

/-- The decoder is a fragment that reads the shape. -/
def IsDecoder (S : Scene) (r : Registry) (s : Shape) (b : Block) : Prop :=
  ∃ low high, Decodes (S.programs r) (S.value s) low high b

/-- The encoder is a fragment that writes the value of the shape that the parameter holds. -/
def IsEncoder (S : Scene) (r : Registry) (s : Shape) (x : Local) (stmts : List Stmt) : Prop :=
  ∃ low high, Encoding.Encodes (S.writers r) (fun _ _ v env => env.get? x.id = some v)
    (Layout.Written S.order S.types s) low high stmts

/-! ### What runs of the generator leave -/

/-- The computation makes sessions go on. Of what it yields `Q` holds, whatever registry comes later.
-/
def Leaves {α : Type} (S : Scene) (act : Gen α) (Q : Registry → α → Prop) : Prop :=
  ∀ σ a τ, Gen.Runs act σ a τ → σ.refs = S.types →
    Advances S.hooks S.types σ τ ∧ ∀ r, τ.registry.Keeps r → Q r a

variable {α β : Type} {act : Gen α} {next : α → Gen β} {Q : Registry → α → Prop}

theorem leaves_pure {a : α} (holds : ∀ r, Q r a) : S.Leaves (pure a) Q := by
  intro σ b τ ran refs
  obtain ⟨rfl, rfl⟩ := Gen.runs_pure.mp ran
  exact ⟨advances_draft refs rfl rfl, fun r _ => holds r⟩

theorem Leaves.bind {Q' : Registry → β → Prop} (first : S.Leaves act Q)
    (second : ∀ a, S.Leaves (next a) fun r b => Q r a → Q' r b) : S.Leaves (act >>= next) Q' := by
  intro σ b τ ran refs
  obtain ⟨a, σ₁, ran₁, ran₂⟩ := Gen.runs_bind.mp ran
  obtain ⟨step, holds⟩ := first σ a σ₁ ran₁ refs
  obtain ⟨step', holds'⟩ := second a σ₁ b τ ran₂ step.refs
  exact ⟨step.trans step', fun r keeps => holds' r keeps (holds r (step'.grows.keeps.trans keeps))⟩

/-- What is yielded does not matter. -/
theorem leaves_of_tame {P : α → Prop} (tame : Tame S.hooks S.types act P) :
    S.Leaves act fun _ _ => True := by
  intro σ a τ ran refs
  exact ⟨(tame σ a τ ran refs).1, fun _ _ => trivial⟩

/-- Something that is known of every run. -/
theorem Leaves.also (leaves : S.Leaves act Q) {P : α → Prop}
    (known : ∀ σ a τ, Gen.Runs act σ a τ → P a) : S.Leaves act fun r a => P a ∧ Q r a := by
  intro σ a τ ran refs
  obtain ⟨step, holds⟩ := leaves σ a τ ran refs
  exact ⟨step, fun r keeps => ⟨known σ a τ ran, holds r keeps⟩⟩

theorem Leaves.withHint {hint : String} (leaves : S.Leaves act Q) :
    S.Leaves (Gen.withHint hint act) Q := by
  intro σ a τ ran refs
  obtain ⟨σ₁, within, rfl⟩ := Gen.runs_withHint.mp ran
  obtain ⟨step, holds⟩ := leaves _ a σ₁ within refs
  exact ⟨⟨step.refs, step.grows, step.sound⟩, holds⟩

/-- A function begins outside all bit groups. -/
theorem leaves_function {P : Registry → Nat → Nat → List Stmt → α → Prop}
    {Q' : Registry → β → Prop} (produces : S.Produces [] act P)
    (later : ∀ a, S.Leaves (next a) fun r b => (∃ low high stmts, P r low high stmts a) → Q' r b) :
    S.Leaves (do Gen.beginFunction; let a ← act; next a) Q' := by
  have first : S.Leaves (do Gen.beginFunction; act) fun r a =>
      ∃ low high stmts, P r low high stmts a := by
    intro σ a τ ran refs
    obtain ⟨_, σ₁, begun, within⟩ := Gen.runs_bind.mp ran
    cases Gen.runs_updateDraft.mp begun
    obtain ⟨step, stmts, _, _, holds⟩ := produces _ a τ within refs rfl
    exact ⟨⟨step.refs, step.grows, step.sound⟩, fun r keeps => ⟨_, _, stmts, holds r keeps⟩⟩
  rw [← bind_assoc]
  exact first.bind later

/-- An encoder begins outside all bit groups, and writes what its parameter holds. -/
theorem leaves_encoder {hint : String} {s : Shape} {src : Local → Expr} {act : Local → Gen Unit}
    {next : Local → List Stmt × Unit → Gen β} {Q' : Registry → β → Prop}
    (held : ∀ {p low env v} {x : Local}, env.get? x.id = some v → x.id < low →
      (src x).Denotes p low env v)
    (writes : ∀ x, S.Writes [] (act x) s (src x))
    (later : ∀ x out, S.Leaves (next x out) fun r b => S.IsEncoder r s x out.1 → Q' r b) :
    S.Leaves (do
      Gen.beginFunction
      let x ← Gen.param hint
      let out ← Gen.capture (act x)
      next x out) Q' := by
  have first : S.Leaves (do
      Gen.beginFunction
      let x ← Gen.param hint
      return (x, ← Gen.capture (act x))) fun r out => S.IsEncoder r s out.1 out.2.1 := by
    intro σ out τ ran refs
    simp only [Gen.runs_bind, Gen.runs_pure] at ran
    obtain ⟨_, _, begun, x, σ₁, named, body, _, captured, rfl, rfl⟩ := ran
    cases Gen.runs_beginFunction.mp begun
    obtain ⟨rfl, rfl⟩ := Gen.runs_param.mp named
    -- The parameter is numbered before all locals of the body.
    obtain ⟨step, _, _, _, holds⟩ := (writes _).capture _ body _ captured refs rfl
    refine ⟨⟨step.refs, step.grows, step.sound⟩, fun r keeps => ⟨_, _, (holds r keeps).2.recast ?_⟩⟩
    exact fun v bytes made => ⟨v, made, fun p env given _ => held given (Nat.lt_succ_self _)⟩
  have whole := first.bind fun out => later out.1 out.2
  simpa only [bind_assoc, pure_bind] using whole

theorem leaves_mapM {f : α → Gen β} {R : Registry → α → β → Prop} {items : List α}
    (each : ∀ a ∈ items, S.Leaves (f a) fun r b => R r a b) :
    S.Leaves (items.mapM f) fun r bs => List.Forall₂ (R r) items bs := by
  induction items with
  | nil =>
    rw [List.mapM_nil]
    exact leaves_pure fun _ => .nil
  | cons a rest ih =>
    obtain ⟨here, later⟩ := List.forall_mem_cons.mp each
    rw [List.mapM_cons]
    exact here.bind fun b => (ih later).bind fun bs => leaves_pure fun r others first =>
      .cons first others

/-! ### Packets -/

variable {depth : Nat}

/-- A packet of a text, without hooks. -/
structure IsPlain (S : Scene) (p : Packet) : Prop where
  covers : S.Covers (.struct p.fields)
  decodeHook : p.decodeHook = none
  encodeHook : p.encodeHook = none

/-- The code of a packet reads and writes its fields, whose values can be told apart. -/
structure IsCode (S : Scene) (r : Registry) (p : Packet) (q : Generated.Packet) : Prop where
  decoder : S.IsDecoder r (.struct p.fields) q.decode
  encoder : S.IsEncoder r (.struct p.fields) q.this q.encode
  told : (Shape.struct p.fields).IsTold S.types

theorem leaves_packet (exports : S.TellsExports) {p : Packet} (plain : S.IsPlain p) (id : Nat) :
    S.Leaves (Generate.packet S.hooks (emitter S.hooks depth) id p) fun r q => S.IsCode r p q := by
  have faithful := faithful_emitter S depth
  have typed : Tame S.hooks S.types ((p.fields.filter (·.shape.isStored)).mapM fun f => do
      let type ← Gen.withHint f.name ((emitter S.hooks depth).typeExpr f.shape)
      return ({ name := f.name, type, doc := f.doc } : FieldDecl)) fun _ => True := by
    refine tame_mapM fun f member => ?_
    have shape : f.shape.IsFieldShape S.types S.rank :=
      .inl ⟨_, Shape.mem_wellFormedFields plain.covers.wf (List.mem_filter.mp member).1⟩
    exact (faithful.orderly.typeExpr f.shape shape).withHint.bind fun _ _ => tame_pure trivial
  have decoder : S.Reads [] (Generate.packetDecoder S.hooks (emitter S.hooks depth) p
      ⟨Naming.typeName p.name, p.fields⟩) (S.value (.struct p.fields)) := by
    rw [Generate.packetDecoder, plain.decodeHook, Scene.value, Layout.valueWith]
    refine (faithful.decodeBindings plain.covers).bind fun bindings => produces_pure ?_
    intro r n low front binds
    rw [List.append_nil]
    rw [Scene.members, Layout.membersWith] at binds
    exact binds.struct _
  have told : S.Shows (Generate.packetDecoder S.hooks (emitter S.hooks depth) p
      ⟨Naming.typeName p.name, p.fields⟩) ((Shape.struct p.fields).IsTold S.types) := by
    rw [Generate.packetDecoder, plain.decodeHook]
    exact ((tells_emitter exports depth).decodeBindings _ plain.covers.wf).first
  have encoder (this : Local) : S.Writes [] (Generate.packetEncoder S.hooks (emitter S.hooks depth) p
      ⟨Naming.typeName p.name, p.fields⟩ (.var this)) (.struct p.fields) (.var this) := by
    rw [Generate.packetEncoder, plain.encodeHook]
    refine ((Encoding.faithful_emitter S depth).encodeFields plain.covers).weaken ?_
    exact fun r low high stmts _ members => members.struct rfl
  unfold Generate.packet
  refine ((leaves_of_tame typed).bind fun fields => ?_).withHint
  refine leaves_function (decoder.captureBlock.also told.captureBlock) fun decode => ?_
  refine leaves_encoder Expr.denotes_var encoder fun this body => leaves_pure ?_
  rintro r encoder ⟨low, high, _, ⟨_, decodes⟩, told⟩ -
  exact ⟨⟨low, high, decodes⟩, encoder, told⟩

/-- The packets of a flow have their positions as ids, and code that reads and writes their fields.
-/
structure IsFlow (S : Scene) (r : Registry) (packets : List Packet) (f : Generated.FlowUnit) :
    Prop where
  numbered : f.packets.map (fun q => (q.id, q.name)) = Packet.numbered packets 0
  code : List.Forall₂ (S.IsCode r) packets f.packets

theorem leaves_packetsFrom (exports : S.TellsExports) {packets : List Packet}
    (plain : ∀ p ∈ packets, S.IsPlain p) (handlers : List String) (id : Nat) :
    S.Leaves (Generate.packetsFrom S.hooks (emitter S.hooks depth) handlers id packets)
      fun r out => List.Forall₂ (S.IsCode r) packets out := by
  induction packets generalizing handlers id with
  | nil => exact leaves_pure fun _ => .nil
  | cons p rest ih =>
    obtain ⟨here, later⟩ := List.forall_mem_cons.mp plain
    rw [Generate.packetsFrom]
    refine (leaves_packet exports here id).bind fun q => (ih later _ _).bind fun others =>
      leaves_pure ?_
    intro r rest code
    refine .cons ?_ rest
    -- Another handler does not change the code.
    split
    · exact ⟨code.decoder, code.encoder, code.told⟩
    · exact code

theorem leaves_protocol (exports : S.TellsExports) {p : Protocol}
    (plain : ∀ flow, ∀ packet ∈ p.packets flow, S.IsPlain packet) :
    S.Leaves (Generate.protocol S.hooks (emitter S.hooks depth) p) fun r q =>
      Generated.Protocol.HasFlows (S.IsFlow r) p q := by
  have flows : S.Leaves (Generate.flows S.hooks (emitter S.hooks depth) p) fun r out =>
      List.Forall₂ (fun flow f => f.flow = flow ∧ S.IsFlow r (p.packets flow) f)
        (Flow.all.filter fun flow => !(p.packets flow).isEmpty) out := by
    refine leaves_mapM fun flow _ => (leaves_of_tame tame_updateDraft).bind fun _ => ?_
    refine ((leaves_packetsFrom exports (plain flow) [] 0).also fun _ _ _ ran =>
      Generate.tags_of_packetsFrom ran).bind fun _ => leaves_pure ?_
    exact fun r ⟨numbered, code⟩ _ => ⟨rfl, numbered, code⟩
  exact flows.bind fun _ => leaves_pure fun _ made => ⟨rfl, made⟩

end Scene

end Decoding

end WireSchema
