import WireSchema.Proofs.Generation.Completeness
import WireSchema.Proofs.Lowering.EncoderCoupling

/-!
# Schemas that stand for the same are generated alike

Schemas may have the same packets with references in different places. Their packets get the same
ids and names, and decoders and encoders that are equal up to names.
-/

namespace WireSchema

open Ir Lowering

/-! ### Packets that are equal up to names -/

namespace Generated

variable (may : String → Prop) (w : World)

structure Packet.Alike (p p' : Packet) : Prop where
  id : p'.id = p.id
  name : p'.name = p.name
  typeName : p'.typeName = p.typeName
  handler : p'.handler = p.handler
  this : p'.this = p.this
  decode : w.Alike may (fun ρ => p.decode.rename ρ) fun ρ => p'.decode.rename ρ
  encode : w.Alike may (fun ρ => Stmt.renameBlock ρ p.encode) fun ρ => Stmt.renameBlock ρ p'.encode

structure FlowUnit.Alike (f f' : FlowUnit) : Prop where
  flow : f'.flow = f.flow
  packets : List.Forall₂ (Packet.Alike may w) f.packets f'.packets

structure Protocol.Alike (p p' : Protocol) : Prop where
  name : p'.name = p.name
  flows : List.Forall₂ (FlowUnit.Alike may w) p.flows p'.flows

variable {may : String → Prop} {w w' : World}

theorem Packet.Alike.later {p p' : Packet} (alike : Alike may w p p') (before : w.Before w') :
    Alike may w' p p' :=
  { alike with decode := alike.decode.later before, encode := alike.encode.later before }

/-- Whether the name of the handler is taken is the same question for both packets. -/
theorem Packet.Alike.numbered {p p' : Packet} (alike : Alike may w p p') (handlers : List String) :
    Alike may w
      (if handlers.contains p.handler then { p with handler := Generate.numberedHandler p } else p)
      (if handlers.contains p'.handler
        then { p' with handler := Generate.numberedHandler p' } else p') := by
  have same : Generate.numberedHandler p' = Generate.numberedHandler p := by
    rw [Generate.numberedHandler, Generate.numberedHandler, alike.name, alike.id]
  rw [alike.handler]
  split
  · exact ⟨alike.id, alike.name, alike.typeName, same, alike.this, alike.decode, alike.encode⟩
  · exact alike

theorem FlowUnit.Alike.later {f f' : FlowUnit} (alike : Alike may w f f') (before : w.Before w') :
    Alike may w' f f' := ⟨alike.flow, alike.packets.imp fun _ _ packet => packet.later before⟩

theorem Protocol.Alike.later {p p' : Protocol} (alike : Alike may w p p') (before : w.Before w') :
    Alike may w' p p' := ⟨alike.name, alike.flows.imp fun _ _ flow => flow.later before⟩

end Generated

/-! ### Generation -/

namespace Lowering.Sides

variable {S : Sides} {hooks : Hooks} {depth depth' : Nat} {w : World}

/-- Packets that differ in references alone, without hooks. -/
structure Packets (S : Sides) (p p' : Packet) : Prop where
  name : p'.name = p.name
  fields : S.Corresponds (.struct p.fields) (.struct p'.fields)
  plain : p.decodeHook = none ∧ p.encodeHook = none
  plain' : p'.decodeHook = none ∧ p'.encodeHook = none

theorem couples_packet (coupled : S.CoupledAt hooks depth depth') {p p' : Packet}
    (packets : S.Packets p p') (id : Nat) :
    S.Couples w [] [] (Generate.packet hooks (emitter hooks depth) id p)
      (Generate.packet hooks (emitter hooks depth') id p') (Generated.Packet.Alike S.may) := by
  obtain ⟨name, whole, ⟨plain, plain'⟩, ⟨bare, bare'⟩⟩ := packets
  unfold Generate.packet Generate.packetDecoder Generate.packetEncoder
  rw [name, plain, plain', bare, bare']
  refine Couples.withHint ?_
  cases whole.layer S.solves S.solves' with
  | struct each =>
    refine Couples.bind (couples_mapM (P := fun _ _ => True)
      (Shape.Corresponds.stored S.solves S.solves' each) ?_) fun w₁ _ fields fields' _ => ?_
    · rintro w' _ f f' ⟨same, shape⟩
      rw [← same]
      exact (couples_typeExpr shape).withHint.bind fun _ _ _ _ _ => couples_pure trivial
    refine couples_beginFunction.bind fun w₂ _ _ _ _ => ?_
    refine Couples.bind (Couples.captureBlock ?_) fun w₃ _ decode decode' blocks => ?_
    · refine (coupled.decodeBindings whole).bind fun w' _ bs bs' same => couples_pure ?_
      cases same
      exact fun ρ ρ' _ => (rename_structOf ρ _ bs).trans (rename_structOf ρ' _ bs).symm
    refine couples_beginFunction.bind fun w₄ later₄ _ _ _ => ?_
    refine (couples_param "self").bind fun w₅ later₅ this this' same => ?_
    cases same
    have self : S.AlikeExpr w₅ (.var this) (.var this) := .refl _
    refine (coupled.encodeFields whole self).capture.bind fun w₆ later₆ out out' bodies => ?_
    refine couples_pure ⟨rfl, rfl, rfl, rfl, rfl, ?_, bodies.1⟩
    exact ((blocks.later later₄).later later₅).later later₆

theorem couples_packetsFrom (coupled : S.CoupledAt hooks depth depth') {ps ps' : List Packet}
    (packets : List.Forall₂ S.Packets ps ps') (handlers : List String) (id : Nat) :
    S.Couples w [] [] (Generate.packetsFrom hooks (emitter hooks depth) handlers id ps)
      (Generate.packetsFrom hooks (emitter hooks depth') handlers id ps')
      fun w => List.Forall₂ (Generated.Packet.Alike S.may w) := by
  induction packets generalizing w handlers id with
  | nil => exact couples_pure .nil
  | cons first _ ih =>
    refine (couples_packet coupled first id).bind fun w₁ _ p p' alike => ?_
    have numbered := alike.numbered handlers
    dsimp only
    generalize (if handlers.contains p.handler then _ else p) = q,
      (if handlers.contains p'.handler then _ else p') = q' at numbered ⊢
    rw [numbered.handler]
    refine (ih _ (id + 1)).bind fun w₂ later others others' rest => ?_
    exact couples_pure (.cons (numbered.later later) rest)

/-- Protocols that differ in references alone. -/
structure Protocols (S : Sides) (p p' : Protocol) : Prop where
  name : p'.name = p.name
  packets : ∀ flow, List.Forall₂ S.Packets (p.packets flow) (p'.packets flow)

theorem couples_newDraft {α β : Type} {Q : World → α → β → Prop} {act : Gen α} {act' : Gen β}
    (couples : ∀ w', w.Before w' → S.Couples w' [] [] act act' Q) :
    S.Couples w [] [] (Generate.onNewDraft act) (Generate.onNewDraft act') Q := by
  intro s s' t t' a b matched ran ran'
  obtain ⟨_, u, begun, later⟩ := Gen.runs_bind.mp ran
  obtain ⟨_, u', begun', later'⟩ := Gen.runs_bind.mp ran'
  cases Gen.runs_updateDraft.mp begun
  cases Gen.runs_updateDraft.mp begun'
  exact couples w (.refl w) (matched.redraft {} {} rfl rfl fun _ _ _ => rfl) later later'

theorem couples_protocol (coupled : S.CoupledAt hooks depth depth') {p p' : Protocol}
    (protocols : S.Protocols p p') :
    S.Couples w [] [] (Generate.protocol hooks (emitter hooks depth) p)
      (Generate.protocol hooks (emitter hooks depth') p') (Generated.Protocol.Alike S.may) := by
  have used : (Flow.all.filter fun flow => !(p'.packets flow).isEmpty) =
      Flow.all.filter fun flow => !(p.packets flow).isEmpty := by
    refine List.filter_congr fun flow _ => ?_
    have paired := protocols.packets flow
    generalize p.packets flow = left, p'.packets flow = right at paired ⊢
    cases paired <;> rfl
  unfold Generate.protocol Generate.flows
  rw [used]
  refine Couples.bind (couples_mapM_later (P := Generated.FlowUnit.Alike S.may)
    (fun _ _ _ _ alike later => alike.later later) (List.forall₂_same.mpr fun flow _ => rfl) ?_)
    fun w₁ _ flows flows' alike => couples_pure ⟨protocols.name, alike⟩
  rintro w' _ flow _ rfl
  refine couples_newDraft fun w₁ _ => ?_
  refine (couples_packetsFrom coupled (protocols.packets flow) [] 0).bind
    fun w₂ _ packets packets' alike => couples_pure ⟨rfl, alike⟩

/-- The codecs that were made of corresponding shapes are equal up to names. -/
theorem alike_codec (S : Sides) {r r' : Registry} {name : String} {inner inner' : Shape}
    {c c' : CodecDecl} (makes : r.Makes hooks S.types name inner c)
    (makes' : r'.Makes hooks S.types' name inner' c') (corresponds : S.Corresponds inner inner') :
    c'.value = c.value ∧
      World.Alike S.may ⟨r, r'⟩ (fun ρ => c.decode.rename ρ) (fun ρ => c'.decode.rename ρ) ∧
      World.Alike S.may ⟨r, r'⟩ (fun ρ => Stmt.renameBlock ρ c.encode)
        fun ρ => Stmt.renameBlock ρ c'.encode := by
  obtain ⟨_, depth, σ, σ₁, σ₂, τ, refs, draft, keeps, decoder, begun, encoder⟩ := makes
  obtain ⟨_, depth', σ', σ₁', σ₂', τ', refs', draft', keeps', decoder', begun', encoder'⟩ := makes'
  have coupled := coupled_emitter S hooks depth depth'
  have start : Matched S.types S.types' S.may ⟨σ.registry, σ'.registry⟩ [] [] σ σ' := by
    refine ⟨refs, refs', rfl, rfl, ?_, ?_, ?_⟩
    · rw [draft]
      rfl
    · rw [draft']
      rfl
    · rw [draft, draft']
      exact fun _ _ _ => rfl
  obtain ⟨w₁, _, matched₁, decodes⟩ :=
    (coupled.decodeExpr (.shape corresponds)).captureBlock start decoder decoder'
  have parameter : S.Couples w₁ [] [] (Gen.beginFunction *> Gen.param "value")
      (Gen.beginFunction *> Gen.param "value") fun _ x x' => x' = x := by
    simp only [seqRight_eq_bind]
    exact couples_beginFunction.bind fun w _ _ _ _ => couples_param "value"
  obtain ⟨w₂, later₂, matched₂, value⟩ := parameter matched₁ begun begun'
  rw [value] at encoder'
  have place : S.AlikeExpr w₂ (.place c.value) (.place c.value) := fun _ _ _ => rfl
  obtain ⟨w₃, later₃, matched₃, encodes, _⟩ :=
    (coupled.encode corresponds place).capture matched₂ encoder encoder'
  have last : w₃.Before ⟨r, r'⟩ := by
    refine ⟨?_, ?_⟩
    · rw [← matched₃.registry]
      exact keeps
    · rw [← matched₃.registry']
      exact keeps'
  exact ⟨value, ((decodes.later later₂).later later₃).later last, encodes.later last⟩

/-- Both schemas are generated alike, whatever the depths of their emitters. -/
theorem alike_protocols (S : Sides) {s s' : Schema} {protocols protocols' : List Generated.Protocol}
    {τ τ' : Session} (refs : s.refs = S.types) (refs' : s'.refs = S.types')
    (types : s.types = s.refs) (types' : s'.types = s'.refs)
    (paired : List.Forall₂ S.Protocols s.protocols s'.protocols)
    (ran : Gen.Runs (s.generateUnits hooks) s.session protocols τ)
    (ran' : Gen.Runs (s'.generateUnits hooks) s'.session protocols' τ') :
    List.Forall₂ (Generated.Protocol.Alike S.may ⟨τ.registry, τ'.registry⟩) protocols
      protocols' := by
  obtain ⟨σ, prepared, generated⟩ := Schema.runs_generateUnits.mp ran
  obtain ⟨σ', prepared', generated'⟩ := Schema.runs_generateUnits.mp ran'
  -- The types leave the draft alone, so the protocols start on the same one.
  have quiet (depth : Nat) (entries : Refs) :
      Gen.Quiet (entries.forM fun entry => (emitter hooks depth).prepare entry.2) :=
    Gen.quiet_forM (fun entry => quiet_preparing hooks depth entry.2) entries
  have draft : σ.draft = {} := quiet _ _ _ _ _ prepared
  have draft' : σ'.draft = {} := quiet _ _ _ _ _ prepared'
  rw [types, refs] at prepared
  rw [types', refs'] at prepared'
  obtain ⟨step, _⟩ := declared_prepareAll S.solves.ordered S.separate S.types (fun _ member => member)
    prepared refs
  obtain ⟨step', _⟩ := declared_prepareAll S.solves'.ordered S.separate' S.types'
    (fun _ member => member) prepared' refs'
  have start : Matched S.types S.types' S.may ⟨σ.registry, σ'.registry⟩ [] [] σ σ' := by
    refine ⟨step.refs, step'.refs, rfl, rfl, ?_, ?_, ?_⟩
    · rw [draft]
    · rw [draft']
    · rw [draft, draft']
      exact fun _ _ _ => rfl
  have coupled := coupled_emitter S hooks (depthFor s.weight) (depthFor s'.weight)
  have couples : S.Couples ⟨σ.registry, σ'.registry⟩ [] [] (s.protocols.mapM _)
      (s'.protocols.mapM _) fun w => List.Forall₂ (Generated.Protocol.Alike S.may w) :=
    couples_mapM_later (fun _ _ _ _ alike later => alike.later later) paired fun w _ p p' both =>
      couples_protocol coupled both
  obtain ⟨w, _, matched, alike⟩ := couples start generated generated'
  have last : w = ⟨τ.registry, τ'.registry⟩ := by
    rw [matched.registry, matched.registry']
  rwa [last] at alike

end Lowering.Sides

end WireSchema
