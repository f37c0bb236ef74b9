import WireSchema.Proofs.Generation.Units
import WireSchema.Proofs.Lowering.Quiet
import WireSchema.Proofs.Lowering.Orderly

/-!
# What generation declares

When the code of a schema is generated, every exported type has its codec, and a name that the
registry gave to an enumeration is that of a declaration of this enumeration.
-/

namespace WireSchema

open Ir Lowering

/-- The schema has the types and the packets of a text, without hooks. -/
structure Schema.WellFormed (rank : String → Nat) (s : Schema) : Prop where
  types : s.types = s.refs
  ordered : s.refs.Ordered rank
  packets : ∀ p ∈ s.protocols, ∀ flow, ∀ packet ∈ p.packets flow,
    (Shape.struct packet.fields).WellFormed s.refs rank s.refs.length ∧
      packet.decodeHook = none ∧ packet.encodeHook = none

/-- What the registry holds when generation is over. -/
structure Registry.Complete (hooks : Hooks) (types : Refs) (r : Registry) : Prop where
  sound : r.Sound hooks types
  finished : ∀ name, (name, none) ∉ r.slots
  codecs : ∀ name inner, (name, .exported name inner) ∈ types →
    r.isDeclared (readerName (codecBase name)) = true
  functions : r.functions = []

variable {hooks : Hooks} {types : Refs} {rank : String → Nat} {em : Emitter}

namespace Lowering

/-! ### Types -/

theorem quiet_prepare {em : Emitter} (ofType : ∀ s, Gen.Quiet (em.typeExpr s))
    (within : ∀ s, Gen.Quiet (em.prepare s)) (s : Shape) : Gen.Quiet (prepare em s) := by
  have whole : Gen.Quiet (do
      discard <| em.typeExpr s
      (s.subshapes (← Gen.refs)).forM em.prepare) :=
    (ofType s).discard.bind fun _ => Gen.quiet_refs.bind fun refs => Gen.quiet_forM within _
  cases s with
  | ref | slot => exact Gen.quiet_pure ()
  | exported => exact (ofType _).discard
  | _ => exact whole

theorem quiet_preparing (hooks : Hooks) (depth : Nat) (s : Shape) :
    Gen.Quiet ((emitter hooks depth).prepare s) := by
  induction depth generalizing s with
  | zero => exact Gen.quiet_throw _
  | succ depth ih => exact quiet_prepare (quiet_emitter hooks depth) ih s

/-- Preparing an exported type declares its codec. -/
theorem declared_prepare (ordered : types.Ordered rank) (separate : types.Separate) {depth : Nat}
    {name : String} {inner : Shape} (member : (name, .exported name inner) ∈ types) {σ σ' : Session}
    (ran : Gen.Runs ((emitter hooks depth).prepare (.exported name inner)) σ () σ')
    (refs : σ.refs = types) : σ'.registry.isDeclared (readerName (codecBase name)) = true := by
  cases depth with
  | zero => exact (Gen.runs_throw.mp ran).elim
  | succ depth =>
    obtain ⟨t, ran⟩ := Gen.runs_discard.mp ran
    cases depth with
    | zero => exact (Gen.runs_throw.mp ran).elim
    | succ depth =>
      have orderly := orderly_emitter hooks ordered separate depth
      obtain ⟨out, σ₁, aliased, later⟩ := Gen.runs_bind.mp ran
      obtain ⟨step, same⟩ :=
        tame_declareAlias ordered separate orderly (.inr member) _ _ _ aliased refs
      rw [same] at later
      obtain ⟨_, σ₂, declared, last⟩ := Gen.runs_bind.mp later
      obtain ⟨_, rfl⟩ := Gen.runs_pure.mp last
      exact (advances_declareCodec ordered separate orderly member declared step.refs).2

/-- Preparing types declares the codecs of those that are exported. -/
theorem declared_prepareAll (ordered : types.Ordered rank) (separate : types.Separate) {depth : Nat}
    (entries : Refs) (within : ∀ entry ∈ entries, entry ∈ types) {σ σ' : Session}
    (ran : Gen.Runs (entries.forM fun entry => (emitter hooks depth).prepare entry.2) σ () σ')
    (refs : σ.refs = types) : Advances hooks types σ σ' ∧ ∀ name inner,
      (name, .exported name inner) ∈ entries →
      σ'.registry.isDeclared (readerName (codecBase name)) = true := by
  induction entries generalizing σ with
  | nil =>
    obtain ⟨_, rfl⟩ := Gen.runs_forM_nil.mp ran
    exact ⟨advances_draft refs rfl rfl, fun _ _ member => by cases member⟩
  | cons entry rest ih =>
    have orderly := orderly_emitter hooks ordered separate depth
    obtain ⟨σ₁, first, others⟩ := Gen.runs_forM_cons.mp ran
    have member := within entry (List.mem_cons_self ..)
    have shape : entry.2.IsFieldShape types rank := fieldShape_target ordered
      (lookup_of_mem ordered.nodup member)
    obtain ⟨step, _⟩ := orderly.prepare _ shape _ _ _ first refs
    obtain ⟨step', declared⟩ := ih (fun e later => within e (List.mem_cons_of_mem _ later)) others
      step.refs
    refine ⟨step.trans step', fun name inner here => ?_⟩
    rcases List.mem_cons.mp here with rfl | later
    · exact step'.grows.isDeclared (declared_prepare ordered separate member first refs)
    · exact declared name inner later

/-! ### Packets -/

theorem tame_beginFunction : Tame hooks types Gen.beginFunction fun _ => True := tame_updateDraft

theorem tame_packet (orderly : em.Orderly hooks types rank) {bound : Nat} {p : Packet}
    (wf : (Shape.struct p.fields).WellFormed types rank bound) (plain : p.decodeHook = none)
    (plain' : p.encodeHook = none) (id : Nat) :
    Tame hooks types (Generate.packet hooks em id p) fun _ => True := by
  have whole : (Shape.struct p.fields).IsFieldShape types rank := .inl ⟨bound, wf⟩
  refine Tame.withHint (Tame.bind (tame_mapM fun f member => ?_) fun _ _ => ?_)
  · have shape : f.shape.IsFieldShape types rank :=
      .inl ⟨bound, Shape.mem_wellFormedFields wf (List.mem_filter.mp member).1⟩
    exact (orderly.typeExpr f.shape shape).withHint.bind fun _ _ => tame_pure trivial
  · refine tame_beginFunction.bind fun _ _ => ?_
    refine Tame.bind (Tame.captureBlock (Q := fun _ => True) ?_) fun _ _ => ?_
    · rw [Generate.packetDecoder, plain]
      exact (orderly.decodeBindings _ whole).bind fun _ _ => tame_pure trivial
    refine tame_beginFunction.bind fun _ _ => tame_param.bind fun this _ => ?_
    refine Tame.bind (Tame.capture (Q := fun _ => True) ?_) fun _ _ => tame_pure trivial
    rw [Generate.packetEncoder, plain']
    exact orderly.encodeFields _ _ whole

theorem tame_packetsFrom (orderly : em.Orderly hooks types rank) {packets : List Packet}
    {bound : Nat} (wf : ∀ p ∈ packets, (Shape.struct p.fields).WellFormed types rank bound ∧
      p.decodeHook = none ∧ p.encodeHook = none) (handlers : List String) (id : Nat) :
    Tame hooks types (Generate.packetsFrom hooks em handlers id packets) fun _ => True := by
  induction packets generalizing handlers id with
  | nil => exact tame_pure trivial
  | cons p rest ih =>
    obtain ⟨shape, plain, plain'⟩ := wf p (List.mem_cons_self ..)
    refine (tame_packet orderly shape plain plain' id).bind fun generated _ => ?_
    refine (ih (fun q later => wf q (List.mem_cons_of_mem _ later)) _ _).bind fun others _ => ?_
    exact tame_pure trivial

theorem tame_protocol (orderly : em.Orderly hooks types rank) {bound : Nat} {p : Protocol}
    (wf : ∀ flow, ∀ packet ∈ p.packets flow,
      (Shape.struct packet.fields).WellFormed types rank bound ∧
        packet.decodeHook = none ∧ packet.encodeHook = none) :
    Tame hooks types (Generate.protocol hooks em p) fun _ => True := by
  refine Tame.bind (tame_mapM fun flow _ => ?_) fun _ _ => tame_pure trivial
  refine tame_updateDraft.bind fun _ _ => ?_
  exact (tame_packetsFrom orderly (wf flow) [] 0).bind fun _ _ => tame_pure trivial

end Lowering

/-! ### The registry in the end -/

theorem complete_generateUnits {s : Schema} (wf : s.WellFormed rank) (separate : s.refs.Separate)
    {protocols : List Generated.Protocol} {τ : Session}
    (ran : Gen.Runs (s.generateUnits hooks) s.session protocols τ) :
    τ.registry.Complete hooks s.refs := by
  obtain ⟨σ, prepared, generated⟩ := Schema.runs_generateUnits.mp ran
  rw [wf.types] at prepared
  have orderly := orderly_emitter hooks wf.ordered separate (depthFor s.weight)
  obtain ⟨step, declared⟩ := declared_prepareAll wf.ordered separate s.refs (fun _ member => member)
    prepared rfl
  have rest : Tame hooks s.refs (s.protocols.mapM (Generate.protocol hooks _)) fun _ => True :=
    tame_mapM fun p member => tame_protocol orderly (wf.packets p member)
  obtain ⟨step', _⟩ := rest _ _ _ generated step.refs
  have grows : Registry.Grows {} τ.registry := step.grows.trans step'.grows
  constructor
  case sound => exact step'.sound (step.sound Registry.sound_empty)
  case finished =>
    intro name member
    cases grows.unfinished name member
  case codecs => exact fun name inner member => step'.grows.isDeclared (declared name inner member)
  case functions => exact grows.functions

/-! ### Finding declarations -/

namespace Registry.Complete

variable {r : Registry} {g : Generated}

theorem mem_finished {d : Decl} : d ∈ r.finished ↔ ∃ name, (name, some d) ∈ r.slots := by
  simp only [Registry.finished, List.mem_filterMap]
  constructor
  · rintro ⟨⟨name, o⟩, member, rfl⟩
    exact ⟨name, member⟩
  · rintro ⟨name, member⟩
    exact ⟨_, member, rfl⟩

/-- The codec of an exported type is found under its base name. -/
theorem codec (complete : r.Complete hooks types) (ordered : types.Ordered rank)
    (separate : types.Separate) (same : g.types = r.finished) {name : String} {inner : Shape}
    (member : (name, .exported name inner) ∈ types) :
    ∃ c, g.codec? (codecBase name) = some c ∧ Makes hooks types r name inner c := by
  cases search : g.codec? (codecBase name) with
  | some c =>
    -- What is found is a codec with this base, so it was made of this type.
    obtain ⟨d, found, is⟩ := List.exists_of_findSome?_eq_some search
    rw [same, mem_finished] at found
    obtain ⟨slot, inSlots⟩ := found
    have fits := complete.sound.fits slot d inSlots
    cases d with
    | codec c' =>
      obtain ⟨exported, inner', member', _, makes⟩ := fits
      dsimp only at is
      split at is
      · next based =>
        cases is
        have bases := (eq_of_beq based).symm.trans makes.base
        cases separate.bases member member' bases
        cases ordered.declares_unique (.inr member) (.inr member')
        exact ⟨c, rfl, makes⟩
      · cases is
    | _ => cases is
  | none =>
    -- The codec was declared, so there is one to find.
    have declared := complete.codecs name inner member
    obtain ⟨⟨slot, o⟩, inSlots, called⟩ := List.mem_map.mp (isDeclared_iff.mp declared)
    dsimp only at called
    cases o with
    | none => exact absurd inSlots (complete.finished slot)
    | some d =>
      have fits := complete.sound.fits slot d inSlots
      have found : d ∈ g.types := by
        rw [same]
        exact mem_finished.mpr ⟨slot, inSlots⟩
      have missed := List.findSome?_eq_none_iff.mp search d found
      cases d with
      | codec c =>
        obtain ⟨exported, inner', _, named, makes⟩ := fits
        have bases := readerName_unique (called.symm.trans named)
        dsimp only at missed
        rw [makes.base, ← bases, if_pos (beq_self_eq_true _)] at missed
        cases missed
      | _ => exact absurd called (fits.2 name inner member)

/-- The declaration of a name that the registry gave to an enumeration. -/
theorem decl (complete : r.Complete hooks types) (same : g.types = r.finished)
    {backing : Primitive} {entries : List (String × Int)} {signature name : String}
    (is : IsEnumSignature types backing entries signature)
    (known : r.constants.lookup signature = some name) :
    g.decl? name = some (.enum ⟨name, backing, entries⟩) := by
  have inSlots := complete.sound.enums backing entries signature name is known
  have found : Decl.enum ⟨name, backing, entries⟩ ∈ g.types := by
    rw [same]
    exact mem_finished.mpr ⟨name, inSlots⟩
  cases search : g.decl? name with
  | none =>
    have missed := List.find?_eq_none.mp search _ found
    exact absurd (beq_self_eq_true name) missed
  | some d =>
    -- The declaration of this name is the only one.
    have member := List.mem_of_find?_eq_some search
    have named := List.find?_some search
    rw [same, mem_finished] at member
    obtain ⟨slot, inSlots'⟩ := member
    have fits := complete.sound.fits slot d inSlots'
    cases d with
    | codec c => cases named
    | _ =>
      cases fits.1.symm.trans (eq_of_beq named)
      exact complete.sound.slot_unique inSlots' inSlots

end Registry.Complete

end WireSchema
