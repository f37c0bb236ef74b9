import WireSchema.Proofs.Decoding.Producing
import WireSchema.Proofs.Encoding.ReadBack
import WireSchema.Proofs.Lowering.Members

/-!
# Decoders tell values apart

A decoder is only generated for a shape whose enumerations have distinct ids and whose unions have
distinct tags, and so is that of each shape in it. The proof goes down with the depth of the emitter;
exported types have decoders of their own, which were generated by themselves.
-/

namespace WireSchema

open Ir Lowering Decoding

/-! ### Shapes -/

namespace Shape

variable {types : Refs} {s t : Shape}

/-- The values of the shape can be told apart, and those of all shapes in it. -/
def IsTold (refs : Refs) (s : Shape) : Prop := ∀ t, Reaches refs s t → t.TellsApart refs

theorem isTold_of_parts (own : s.TellsApart types)
    (parts : ∀ part ∈ s.subshapes types, part.IsTold types) : s.IsTold types := by
  intro t reaches
  rcases reaches.cases_head with rfl | ⟨part, member, later⟩
  · exact own
  · exact parts part member t later

theorem isTold_of_none (own : s.TellsApart types) (none : s.subshapes types = []) :
    s.IsTold types := isTold_of_parts own (none ▸ List.forall_mem_nil _)

theorem isTold_of_part {part : Shape} (own : s.TellsApart types) (only : s.subshapes types = [part])
    (told : part.IsTold types) : s.IsTold types :=
  isTold_of_parts own fun other member => by
    rw [only, List.mem_singleton] at member
    exact member ▸ told

/-- A shape is told like the one it stands for. -/
theorem Resolves.isTold (resolves : Resolves types s t) (told : t.IsTold types) :
    s.IsTold types := by
  induction resolves with
  | direct => exact told
  | «alias» _ ih | exported _ ih => exact isTold_of_part trivial rfl (ih told)
  | ref found _ ih => exact isTold_of_part trivial (by rw [subshapes, found]; rfl) (ih told)

/-- There are only slots in a bit group. -/
theorem isTold_of_slots {fields : List Field} (own : s.TellsApart types)
    (parts : s.subshapes types = fields.map (·.shape))
    (slots : ∀ f ∈ fields, ∃ group index kind, f.shape = .slot group index kind) :
    s.IsTold types := by
  refine isTold_of_parts own fun part member => ?_
  rw [parts] at member
  obtain ⟨f, among, rfl⟩ := List.mem_map.mp member
  obtain ⟨group, index, kind, shape⟩ := slots f among
  rw [shape]
  exact isTold_of_none trivial rfl

/-- No tag selects two variants of a union whose arms were generated. -/
theorem tagsApart_of_tagged {em : Emitter} {tag : Shape} {tags : List (String × Literal)}
    {r : Registry} {variants : List (String × Shape)} {seen values : List Tag}
    {arms : List (Pattern × List Stmt)}
    (tagged : Tagged types em tag tags r (variants.zipIdx 0) seen values arms) :
    TagsApart types tag variants tags := by
  intro v is i j a b here there selects selects'
  -- The tag of a variant that is selected is the value itself.
  have tag_at {i : Nat} {a : String × Shape} (here : variants[i]? = some a)
      (selects : Layout.selects v (tags.lookup a.1) i a.1 = true) :
      ∃ t, values[i]? = some t ∧ t.value = v ∧ Run.matchBindings v t.pattern = some [] := by
    obtain ⟨inside, rfl⟩ := List.getElem?_eq_some_iff.mp here
    have placed : i < (variants.zipIdx 0).length := by rwa [List.length_zipIdx]
    have inside' : i < values.length := tagged.asked.length_eq ▸ placed
    obtain ⟨σ, σ', asked, refs, _⟩ := tagged.asked.get placed inside'
    simp only [List.get_eq_getElem, List.getElem_zipIdx, Nat.zero_add] at asked
    refine ⟨values[i], List.getElem?_eq_getElem inside', ?_, ?_⟩
    · exact value_of_selects asked (refs ▸ is) selects
    · rw [matchBindings_tag asked (refs ▸ is), if_pos selects]
  obtain ⟨t, first, own, matched⟩ := tag_at here selects
  obtain ⟨t', second, _, matched'⟩ := tag_at there selects'
  have fits : t.Fits := t.matchBindings_own.mp (own ▸ matched)
  have alike := tagged.alike t (List.mem_of_getElem? first) t' (List.mem_of_getElem? second)
  rw [← own, Tag.matchBindings_value alike fits] at matched'
  have same : t = t' := by
    by_contra differ
    rw [if_neg differ] at matched'
    cases matched'
  subst same
  obtain ⟨inside, _⟩ := List.getElem?_eq_some_iff.mp first
  exact (List.getElem?_inj inside tagged.distinct).mp (first.trans second.symm)

end Shape

namespace Decoding.Scene

variable {S : Scene} {α β : Type} {act : Gen α} {next : α → Gen β} {P P' : Prop}

/-! ### What a run shows -/

/-- Where the computation succeeds, the claim holds. -/
def Shows (S : Scene) (act : Gen α) (P : Prop) : Prop :=
  ∀ σ a τ, Gen.Runs act σ a τ → σ.refs = S.types → P

theorem shows_of (holds : P) : S.Shows act P := fun _ _ _ _ _ => holds

theorem shows_throw {e : SchemaError} : S.Shows (throw e : Gen α) P :=
  fun _ _ _ ran => (Gen.runs_throw.mp ran).elim

theorem Shows.first (shows : S.Shows act P) : S.Shows (act >>= next) P := by
  intro σ b τ ran refs
  obtain ⟨a, σ₁, ran₁, _⟩ := Gen.runs_bind.mp ran
  exact shows σ a σ₁ ran₁ refs

theorem Shows.later {Q : α → Prop} (tame : Tame S.hooks S.types act Q)
    (shows : ∀ a, Q a → S.Shows (next a) P) : S.Shows (act >>= next) P := by
  intro σ b τ ran refs
  obtain ⟨a, σ₁, ran₁, ran₂⟩ := Gen.runs_bind.mp ran
  obtain ⟨step, known⟩ := tame σ a σ₁ ran₁ refs
  exact shows a known σ₁ b τ ran₂ step.refs

theorem Shows.imp (shows : S.Shows act P) (weaker : P → P') : S.Shows act P' :=
  fun σ a τ ran refs => weaker (shows σ a τ ran refs)

theorem Shows.and (shows : S.Shows act P) (shows' : S.Shows act P') : S.Shows act (P ∧ P') :=
  fun σ a τ ran refs => ⟨shows σ a τ ran refs, shows' σ a τ ran refs⟩

theorem Shows.discard (shows : S.Shows act P) : S.Shows (discard act) P := by
  intro σ u τ ran refs
  obtain ⟨a, ran⟩ := Gen.runs_discard.mp ran
  exact shows σ a τ ran refs

theorem Shows.withHint {hint : String} (shows : S.Shows act P) :
    S.Shows (Gen.withHint hint act) P := by
  intro σ a τ ran refs
  obtain ⟨σ₁, within, rfl⟩ := Gen.runs_withHint.mp ran
  exact shows _ a σ₁ within refs

theorem Shows.declare {requested : String} {init : Gen Expr} (shows : S.Shows init P) :
    S.Shows (Gen.declare requested init) P := by
  intro σ x τ ran refs
  obtain ⟨e, σ₁, d, within, rfl, rfl, rfl⟩ := Gen.runs_declare.mp ran
  exact shows _ e σ₁ within refs

theorem Shows.captureBlock {act : Gen Expr} (shows : S.Shows act P) :
    S.Shows (Gen.captureBlock act) P := by
  intro σ b τ ran refs
  obtain ⟨e, σ₁, within, rfl, rfl⟩ := Gen.runs_captureBlock.mp ran
  exact shows _ e σ₁ within refs

theorem shows_mapM {f : α → Gen β} {items : List α} {R : α → Prop}
    (tame : ∀ a ∈ items, Tame S.hooks S.types (f a) fun _ => True)
    (shows : ∀ a ∈ items, S.Shows (f a) (R a)) : S.Shows (items.mapM f) (∀ a ∈ items, R a) := by
  induction items with
  | nil => exact shows_of (List.forall_mem_nil _)
  | cons first rest ih =>
    obtain ⟨here, others⟩ := List.forall_mem_cons.mp tame
    obtain ⟨own, theirs⟩ := List.forall_mem_cons.mp shows
    rw [List.mapM_cons]
    refine (Shows.and ?_ ?_).imp List.forall_mem_cons.mpr
    · exact own.first
    · exact .later here fun _ _ => (ih others theirs).first

/-! ### Emitters -/

/-- The exported types of lower rank are told apart. -/
def TellsExports (S : Scene) : Prop :=
  ∀ name inner, (name, .exported name inner) ∈ S.types → S.rank name < S.bound → inner.IsTold S.types

/-- What the emitter decodes is told apart. -/
structure Tells (S : Scene) (em : Emitter) : Prop where
  orderly : em.Orderly S.hooks S.types S.rank
  decodeExpr : ∀ s : Shape, s.WellFormed S.types S.rank S.bound →
    S.Shows (em.decodeExpr s) (s.IsTold S.types)
  decodeBindings : ∀ s : Shape, s.WellFormed S.types S.rank S.bound →
    S.Shows (em.decodeBindings s) (s.IsTold S.types)

variable {em : Emitter} {s t : Shape}

theorem shows_decodeFields (tells : S.Tells em) {fields : List Field}
    (wf : Shape.WellFormedFields S.types S.rank S.bound fields) :
    S.Shows (decodeFields em fields) ((Shape.struct fields).IsTold S.types) := by
  have each : S.Shows (decodeFields em fields) (∀ f ∈ fields, f.shape.IsTold S.types) := by
    refine (shows_mapM (fun f member => ?_) fun f member => ?_).first
    · have own := tells.orderly.decodeExpr f.shape (.inl ⟨_, Shape.mem_wellFormedFields wf member⟩)
      exact own.declare.withHint.bind fun _ _ => tame_pure trivial
    · exact (tells.decodeExpr f.shape (Shape.mem_wellFormedFields wf member)).declare.withHint.first
  exact each.imp fun told => Shape.isTold_of_parts trivial (List.forall_mem_map.mpr told)

theorem shows_resolved (tells : S.Tells em) (wf : s.WellFormed S.types S.rank S.bound) :
    S.Shows (do em.decodeBindings (← Gen.resolved s)) (s.IsTold S.types) := by
  refine .later tame_resolved fun t found => ?_
  have resolves := Shape.resolves_of_resolved found
  exact (tells.decodeBindings t (resolves.wellFormed S.ordered wf)).imp resolves.isTold

theorem shows_decodeBindings (tells : S.Tells em) (wf : s.WellFormed S.types S.rank S.bound) :
    S.Shows (decodeBindings em s) (s.IsTold S.types) := by
  have never : S.Shows (do throw (.notAStruct (← Gen.canonicalName s)) :
      Gen (List (String × Local))) (s.IsTold S.types) :=
    .later tame_canonicalName fun _ _ => shows_throw
  cases s with
  | struct fields => exact shows_decodeFields tells wf
  | merged parts =>
    refine Shows.first ((shows_mapM (fun part member => ?_) fun part member =>
      shows_resolved tells (Shape.mem_wellFormedParts wf member)).imp fun told =>
        Shape.isTold_of_parts (s := .merged parts) trivial told)
    exact tame_resolved.bind fun t found => tells.orderly.decodeBindings t
      (fieldShape_resolved S.ordered (Shape.mem_wellFormedParts wf member) found)
  | packed backing widths fields group =>
    refine shows_of (Shape.isTold_of_slots trivial rfl fun f member => ?_)
    obtain ⟨index, width, _, shape⟩ := wf.2.2 f member
    exact ⟨_, _, _, shape⟩
  | flags backing masks fields group =>
    refine shows_of (Shape.isTold_of_slots trivial rfl fun f member => ?_)
    obtain ⟨index, mask, _, shape⟩ := wf.2 f member
    exact ⟨_, _, _, shape⟩
  | «alias» | exported | ref => exact shows_resolved tells wf
  | _ => exact never

theorem shows_decodeOptional (tells : S.Tells em) {value : Shape}
    (wf : value.WellFormed S.types S.rank S.bound) :
    S.Shows (decodeOptional em value (.prim .bool)) (value.IsTold S.types) := by
  have presence : Shape.IsFieldShape S.types S.rank (.prim .bool) := .inl ⟨0, trivial⟩
  refine .later tame_refs fun refs _ => ?_
  split
  · exact .later tame_canonicalName fun _ _ => shows_throw
  · exact .later (tells.orderly.decodeExpr _ presence) fun _ _ =>
      (tells.decodeExpr value wf).captureBlock.first

/-- What is known of an item is known of the collection. -/
theorem shows_decodeCollection {length : Primitive} {empty : Expr} {item : Gen Expr}
    (shows : S.Shows item P) : S.Shows (decodeCollection length empty item) P := by
  have count : Tame S.hooks S.types (pure (Expr.read length)) fun _ => True := tame_pure trivial
  unfold decodeCollection
  split
  · exact shows_throw
  · refine .later tame_lastHint fun _ _ => .later count.declare fun _ _ => ?_
    exact .later tame_declareMut fun _ _ => shows.captureBlock.first

theorem shows_decodePayload (tells : S.Tells em) (key : String) {payload : Shape}
    (wf : payload.WellFormed S.types S.rank S.bound) :
    S.Shows (decodePayload em key payload) (payload.IsTold S.types) := by
  refine .later tame_storedFields fun fields _ => ?_
  split
  · refine .later tame_resolved fun t found => ?_
    have resolves := Shape.resolves_of_resolved found
    have told := tells.decodeBindings t (resolves.wellFormed S.ordered wf)
    exact (told.imp resolves.isTold).discard.first
  · exact (tells.decodeExpr payload wf).withHint.first

theorem shows_decodeArms (tells : S.Tells em) {type : String} {tag : Shape}
    {tags : List (String × Literal)} {result : Local} (shape : tag.IsFieldShape S.types S.rank)
    {variants : List (String × Shape)}
    (wf : Shape.WellFormedVariants S.types S.rank S.bound variants) (seen : List Tag) (index : Nat) :
    S.Shows (decodeArms em type tag tags result seen index variants)
      (∀ v ∈ variants, v.2.IsTold S.types) := by
  induction variants generalizing seen index with
  | nil => exact shows_of (List.forall_mem_nil _)
  | cons first rest ih =>
    obtain ⟨key, payload⟩ := first
    have block : Tame S.hooks S.types (Gen.captureBlock do
        return .variant type key (← decodePayload em key payload)) fun _ => True := by
      refine Tame.captureBlock (Q := fun _ => True) ?_
      exact (tame_decodePayload S.ordered tells.orderly wf.2.1).bind fun _ _ => tame_pure trivial
    refine .later (tame_unionTag tells.orderly shape) fun value _ => ?_
    split
    · exact shows_throw
    · refine (Shows.and ?_ ?_).imp List.forall_mem_cons.mpr
      · exact (shows_decodePayload tells key wf.2.1).first.captureBlock.first
      · exact .later block fun _ _ => (ih wf.2.2 (value :: seen) (index + 1)).first

theorem shows_decodeUnion {depth : Nat} (tells : S.Tells (emitter S.hooks depth)) {tagField : String}
    {tag : Shape} {variants : List (String × Shape)} {tags : List (String × Literal)}
    (wf : (Shape.union tagField tag variants tags).WellFormed S.types S.rank S.bound) :
    S.Shows (decodeUnion (emitter S.hooks depth) tagField tag variants tags)
      ((Shape.union tagField tag variants tags).IsTold S.types) := by
  have shape : tag.IsFieldShape S.types S.rank := .inl ⟨_, wf.1⟩
  have tagged : Tame S.hooks S.types (Gen.withHint tagField
      (Gen.declare tagField ((emitter S.hooks depth).decodeExpr tag))) fun _ => True :=
    (tells.orderly.decodeExpr tag shape).declare.withHint
  have arms : S.Shows (decodeUnion (emitter S.hooks depth) tagField tag variants tags)
      (Shape.TagsApart S.types tag variants tags ∧ ∀ v ∈ variants, v.2.IsTold S.types) := by
    refine .later (tame_unionName S.ordered S.separate tells.orderly wf) fun type _ => ?_
    refine .later tagged fun value _ => .later tame_lastHint fun hint _ => ?_
    refine .later tame_declareDeferred fun result _ => Shows.first (Shows.and ?_ ?_)
    · intro σ out τ ran refs
      obtain ⟨values, tagged⟩ := tagged_of_decodeArms S.ordered S.separate wf.1 wf.2.2 ran refs
      exact Shape.tagsApart_of_tagged tagged
    · exact shows_decodeArms tells shape wf.2.2 [] 0
  have own : S.Shows (decodeUnion (emitter S.hooks depth) tagField tag variants tags)
      (tag.IsTold S.types) := by
    refine .later (tame_unionName S.ordered S.separate tells.orderly wf) fun type _ => ?_
    exact (tells.decodeExpr tag wf.1).declare.withHint.first
  refine (own.and arms).imp fun ⟨tag, apart, payloads⟩ => Shape.isTold_of_parts apart ?_
  exact List.forall_mem_cons.mpr ⟨tag, List.forall_mem_map.mpr payloads⟩

theorem shows_enumName (backing : Primitive) (entries : List (String × Int)) :
    S.Shows (enumName backing entries) ((Shape.enum backing entries).IsTold S.types) := by
  intro σ name τ ran _
  simp only [enumName, Gen.runs_bind, Gen.runs_ofExcept] at ran
  obtain ⟨kind, _, _, signature, _, _, desired, _, _, _, _, ⟨checked, _⟩, _⟩ := ran
  have distinct : (entries.map (·.2)).Nodup := (nodup_of_checkIds checked).1
  exact Shape.isTold_of_none distinct rfl

/-- What is decoded is told apart, if what has a codec of its own is. -/
theorem shows_decodeExpr {depth : Nat} (tells : S.Tells (emitter S.hooks depth))
    (exports : S.TellsExports) (wf : s.WellFormed S.types S.rank S.bound) :
    S.Shows (decodeExpr S.hooks (emitter S.hooks depth) s) (s.IsTold S.types) := by
  cases s with
  | prim | literal => exact shows_of (Shape.isTold_of_none trivial rfl)
  | optional value presence =>
    cases wf.1
    refine (shows_decodeOptional tells wf.2).imp fun told => Shape.isTold_of_parts trivial ?_
    have presence : (Shape.prim .bool).IsTold S.types := Shape.isTold_of_none trivial rfl
    exact List.forall_mem_cons.mpr ⟨told, List.forall_mem_singleton.mpr presence⟩
  | list item length =>
    refine (shows_decodeCollection ?_).imp (Shape.isTold_of_part trivial rfl)
    exact (tells.decodeExpr item wf).withHint
  | map key value length =>
    refine (shows_decodeCollection (Shows.and ?_ ?_)).imp fun told =>
      Shape.isTold_of_parts trivial (List.forall_mem_cons.mpr
        ⟨told.1, List.forall_mem_singleton.mpr told.2⟩)
    · exact (tells.decodeExpr key wf.1).declare.withHint.first
    · have first := tells.orderly.decodeExpr key (.inl ⟨_, wf.1⟩)
      exact .later first.declare.withHint fun _ _ =>
        (tells.decodeExpr value wf.2).declare.withHint.first
  | struct | merged | packed | flags =>
    exact .later (tame_structName S.ordered S.separate tells.orderly wf rfl) fun _ _ =>
      (tells.decodeBindings _ wf).first
  | enum backing entries => exact (shows_enumName backing entries).first
  | union tagField tag variants tags => exact shows_decodeUnion tells wf
  | «alias» name inner =>
    have inside := (S.ordered.inner_alias wf.1).mono (Nat.le_of_lt wf.2)
    refine .later (tells.orderly.typeExpr _ (.inl ⟨_, wf⟩)).discard fun _ _ => ?_
    exact (tells.decodeExpr inner inside).imp (Shape.isTold_of_part trivial rfl)
  | exported name inner =>
    exact shows_of (Shape.isTold_of_part trivial rfl (exports name inner wf.1 wf.2))
  | ref label =>
    refine .later tame_refs fun refs same => ?_
    cases same
    split
    · next target found =>
      have inside := (S.ordered.wellFormed_target found).mono wf.2
      refine (tells.decodeExpr target inside).imp (Shape.isTold_of_part trivial ?_)
      rw [Shape.subshapes, found]
      rfl
    · exact shows_throw
  | slot | custom | transformed => exact wf.elim

theorem tells_emitter (exports : S.TellsExports) (depth : Nat) :
    S.Tells (emitter S.hooks depth) := by
  induction depth with
  | zero =>
    exact ⟨orderly_emitter S.hooks S.ordered S.separate 0, fun _ _ => shows_throw,
      fun _ _ => shows_throw⟩
  | succ depth ih =>
    exact ⟨orderly_emitter S.hooks S.ordered S.separate (depth + 1),
      fun _ wf => shows_decodeExpr ih exports wf, fun _ wf => shows_decodeBindings ih wf⟩

end Decoding.Scene

end WireSchema
