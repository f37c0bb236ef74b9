import WireSchema.Lowering.Tie
import WireSchema.Proofs.Session.Quiet

/-!
# Declarations leave the draft alone

Types, codecs and all that belongs to them are declared on drafts of their own. So the type of a
shape can be asked for in the middle of a body.
-/

namespace WireSchema

open Ir

namespace Lowering

open Gen

theorem quiet_desiredName (signature fallback : String) : Quiet (desiredName signature fallback) := by
  refine (quiet_aliasOf? signature).bind fun found => ?_
  split
  · exact quiet_pure _
  · exact quiet_hintName fallback

theorem quiet_structName (em : Emitter) (s : Shape) : Quiet (structName em s) := by
  refine (quiet_canonicalName s).bind fun signature => quiet_refs.bind fun refs => ?_
  refine (quiet_desiredName _ _).bind fun desired => ?_
  refine Quiet.bind (quiet_registerConstant _ _ fun name => ?_) fun name => ?_
  · exact quiet_refs.bind fun _ => (quiet_ofExcept _).bind fun _ => quiet_nested _ _
  · exact (quiet_registerAlias _ _).discard.bind fun _ => quiet_pure _

theorem quiet_enumName (backing : Primitive) (entries : List (String × Int)) :
    Quiet (enumName backing entries) := by
  refine (quiet_ofExcept _).bind fun kind => (quiet_canonicalName _).bind fun signature => ?_
  refine (quiet_desiredName _ _).bind fun desired => (quiet_ofExcept _).bind fun _ => ?_
  refine (quiet_registerConstant _ _ fun _ => quiet_pure _).bind fun name => ?_
  exact (quiet_registerAlias _ _).discard.bind fun _ => quiet_pure _

theorem quiet_unionName (em : Emitter) (tagField : String) (tag : Shape)
    (variants : List (String × Shape)) (tags : List (String × Literal)) :
    Quiet (unionName em tagField tag variants tags) := by
  intro σ name σ' ran
  simp only [unionName, runs_bind, runs_canonicalName] at ran
  obtain ⟨signature, σ₁, ⟨rfl, rfl⟩, desired, σ₂, wanted, ran⟩ := ran
  rw [← quiet_desiredName _ _ _ _ _ wanted]
  split at ran
  case isTrue => exact (runs_throw.mp ran).elim
  case isFalse =>
  split at ran
  case h_1 => exact (runs_throw.mp ran).elim
  case h_2 =>
    refine Quiet.bind (quiet_registerConstant _ _ fun _ => quiet_nested _ _) (fun name => ?_) _ _ _ ran
    exact (quiet_registerAlias _ _).discard.bind fun _ => quiet_pure _

theorem quiet_declareAlias {em : Emitter} (quiet : ∀ s, Quiet (em.typeExpr s)) (name : String)
    (inner : Shape) : Quiet (declareAlias em name inner) := by
  have aliased (t : TypeExpr) : Quiet (Gen.registerGlobal name (return .alias name t)) :=
    quiet_registerGlobal name (quiet_pure _)
  refine (quiet_canonicalName inner).bind fun signature => (quiet_resolved inner).bind fun found => ?_
  split
  · refine (quiet_registerAlias _ _).discard.bind fun _ => (quiet inner).bind fun actual => ?_
    split
    · exact (aliased actual).discard.bind fun _ => quiet_pure _
    · exact quiet_pure _
  · refine quiet_registry.bind fun r => ?_
    split
    · exact quiet_pure _
    · refine (quiet inner).bind fun target => (aliased target).discard.bind fun _ => ?_
      exact (quiet_registerAlias _ _).discard.bind fun _ => quiet_pure _

theorem quiet_declareCodec (em : Emitter) (name : String) (inner : Shape) :
    Quiet (declareCodec em name inner) :=
  (quiet_registerGlobal _ (quiet_nested _ _)).discard

theorem quiet_aliasedOr (s : Shape) {build : Gen TypeExpr} (quiet : Quiet build) :
    Quiet (aliasedOr s build) := by
  refine (quiet_canonicalName s).bind fun signature => (quiet_aliasOf? _).bind fun found => ?_
  split
  · exact quiet_pure _
  · exact quiet

theorem quiet_typeExpr {em : Emitter} (quiet : ∀ s, Quiet (em.typeExpr s)) (s : Shape) :
    Quiet (typeExpr em s) := by
  cases s with
  | prim | custom | transformed => exact quiet_pure _
  | optional value presence =>
    exact quiet_aliasedOr _ ((quiet value).bind fun _ => quiet_pure _)
  | list item length =>
    exact quiet_aliasedOr _ ((quiet item).withHint.bind fun _ => quiet_pure _)
  | map key value length =>
    exact quiet_aliasedOr _ ((quiet key).withHint.bind fun _ =>
      (quiet value).withHint.bind fun _ => quiet_pure _)
  | struct | merged | packed | flags => exact (quiet_structName em _).bind fun _ => quiet_pure _
  | enum backing entries => exact (quiet_enumName backing entries).bind fun _ => quiet_pure _
  | union tagField tag variants tags =>
    exact (quiet_unionName em tagField tag variants tags).bind fun _ => quiet_pure _
  | slot group index kind => cases kind <;> exact quiet_pure _
  | «alias» name inner => exact (quiet_declareAlias quiet name inner).bind fun _ => quiet_pure _
  | exported name inner =>
    exact (quiet_declareAlias quiet name inner).bind fun _ =>
      (quiet_declareCodec em _ inner).bind fun _ => quiet_pure _
  | ref label =>
    refine quiet_refs.bind fun refs => ?_
    split
    · exact quiet _
    · exact quiet_throw _
  | literal value backing =>
    cases backing with
    | some p => exact quiet_pure _
    | none => cases value <;> exact quiet_pure _

theorem quiet_unionTag {em : Emitter} (quiet : ∀ s, Quiet (em.typeExpr s)) (tag : Shape)
    (tags : List (String × Literal)) (index : Nat) (key : String) :
    Quiet (unionTag em tag tags index key) := by
  refine (quiet_resolved tag).bind fun found => ?_
  split
  · refine (quiet tag).bind fun type => ?_
    split
    · dsimp only
      split
      · exact quiet_pure _
      · exact quiet_throw _
    · exact (quiet_canonicalName _).bind fun _ => quiet_throw _
  · exact quiet_pure _
  · split <;> exact quiet_pure _
  · split
    · split
      · exact quiet_pure _
      · exact (quiet_canonicalName _).bind fun _ => quiet_throw _
      · exact quiet_pure _
    · exact (quiet_canonicalName _).bind fun _ => quiet_throw _
  · exact (quiet_canonicalName _).bind fun _ => quiet_throw _

theorem quiet_tagIsExhaustive (tag : Shape) (variants : List (String × Shape))
    (tags : List (String × Literal)) : Quiet (tagIsExhaustive tag variants tags) := by
  refine (quiet_resolved tag).bind fun found => ?_
  split <;> exact quiet_pure _

/-- The type of a shape can be asked for in the middle of a body. -/
theorem quiet_emitter (hooks : Hooks) (depth : Nat) (s : Shape) :
    Quiet ((emitter hooks depth).typeExpr s) := by
  induction depth generalizing s with
  | zero => exact quiet_throw _
  | succ depth ih => exact quiet_typeExpr ih s

end Lowering

end WireSchema
