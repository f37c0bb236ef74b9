import WireSchema.Machine.Eval
import WireSchema.Proofs.Lookup
import WireSchema.Proofs.Lowering.Orderly

/-!
# Tags select their variants

The tags of a union are of one form, and no two variants have the same. A tag that is written as it
was given selects the variant it was given for. An integer that its type does not hold is written as
another number, so it never selects the variant it was given for.
-/

namespace WireSchema.Lowering

open Ir

/-! ### Tags as values -/

/-- What kind of value a tag is. -/
inductive TagForm where
  | enumeration (type : String)
  | text
  | truth
  | number (kind : IntKind)
  deriving DecidableEq, Repr

namespace Tag

def form : Tag → TagForm
  | .enum type _ => .enumeration type
  | .lit (.str _) => .text
  | .lit (.bool _) => .truth
  | .lit (.int _ kind) => .number kind

/-- The value that is written for a tag. -/
def value : Tag → Value
  | .lit l => .ofLiteral l
  | .enum _ name => .enum name

/-- The type of the tag holds what was given. -/
def Fits : Tag → Prop
  | .lit (.int n kind) => kind.wrap n = n
  | _ => True

theorem eval_expr (p : Program) (t : Tag) : Run.eval p t.expr = pure t.value := by
  cases t <;> rfl

/-- What is written for an integer is its number as its type holds it. -/
theorem asInt?_ofInt (kind : IntKind) (n : Int) :
    (Value.ofInt kind n).asInt? = some (kind.wrap n) := rfl

/-- Tags of one form are told apart by what is written for them, if that is what was given. -/
theorem matchBindings_value {t other : Tag} (alike : t.form = other.form) (fits : t.Fits) :
    Run.matchBindings t.value other.pattern = if t = other then some [] else none := by
  match t, other with
  | .enum type name, .enum type' name' =>
    cases alike
    simp [value, pattern, Run.matchBindings]
  | .lit (.str s), .lit (.str s') =>
    simp [value, pattern, Run.matchBindings, Value.ofLiteral, Value.isLiteral, Value.asStr?]
  | .lit (.bool b), .lit (.bool b') =>
    simp [value, pattern, Run.matchBindings, Value.ofLiteral, Value.isLiteral, Value.asBool?]
  | .lit (.int n kind), .lit (.int m kind') =>
    cases alike
    have given : kind.wrap n = n := fits
    simp [value, pattern, Run.matchBindings, Value.ofLiteral, Value.isLiteral, asInt?_ofInt, given]

/-- What is written for a tag is taken for it exactly when the tag fits. -/
theorem matchBindings_own (t : Tag) : Run.matchBindings t.value t.pattern = some [] ↔ t.Fits := by
  match t with
  | .lit (.int n kind) =>
    simp [value, pattern, Run.matchBindings, Value.ofLiteral, Value.isLiteral, asInt?_ofInt, Fits]
  | .enum _ _ | .lit (.str _) | .lit (.bool _) =>
    exact ⟨fun _ => trivial, fun fits => (matchBindings_value rfl fits).trans (if_pos rfl)⟩

end Tag

/-- A tag that fits selects its own arm. -/
theorem execArms_of_tags {tags : List Tag} {arms : List (Pattern × List Stmt)}
    (paired : List.Forall₂ (fun t arm => arm.1 = t.pattern) tags arms) (distinct : tags.Nodup)
    (alike : ∀ t ∈ tags, ∀ other ∈ tags, t.form = other.form) {t : Tag} {body : List Stmt}
    (member : (t, body) ∈ tags.zip (arms.map (·.2))) (fits : t.Fits) (p : Program)
    (fallback : Option Failure) :
    Run.execArms p t.value fallback arms = Run.execBlock p body := by
  -- The induction is on the arms, in the order in which they are tried.
  induction paired with
  | nil => cases member
  | @cons first arm tags arms pattern _ ih =>
    obtain ⟨shown, code⟩ := arm
    dsimp only at pattern
    subst pattern
    rw [List.nodup_cons] at distinct
    rcases List.mem_cons.mp member with here | later
    · obtain ⟨rfl, rfl⟩ := Prod.mk.inj here
      simp only [Run.execArms, (Tag.matchBindings_own t).mpr fits]
      rfl
    · -- The arm of another tag is passed over.
      have inside : t ∈ tags := (List.of_mem_zip later).1
      have differ : t ≠ first := fun same => distinct.1 (same ▸ inside)
      have passed := Tag.matchBindings_value (alike t (List.mem_cons_of_mem _ inside) first
        (List.mem_cons_self ..)) fits
      rw [if_neg differ] at passed
      simp only [Run.execArms, passed]
      exact ih distinct.2 (fun t here other there => alike t (List.mem_cons_of_mem _ here) other
        (List.mem_cons_of_mem _ there)) later

/-! ### Tags of a union -/

/-- The name that a variant goes by in an enumeration or a text. -/
def givenName (given : Option Literal) (key : String) : String := (given.map literalName).getD key

/-- The literal by which a variant goes in a primitive: what was given for it, or else its key for
texts and its position for booleans and integers. -/
def literalTag (given : Option Literal) (index : Nat) (key : String) : Primitive → Option Literal
  | .string => some (.str (givenName given key))
  | .bool => match given with
    | some (.bool b) => some (.bool b)
    | some (.int v _) => some (.bool (v != 0))
    | _ => some (.bool (index != 0))
  | p => p.intKind?.bind fun kind => match given with
    | some (.int v _) => some (.int v kind)
    | some _ => none
    | none => some (.int index kind)

variable {hooks : Hooks} {types : Refs} {rank : String → Nat} {em : Emitter} {tag : Shape}
  {tags : List (String × Literal)} {index : Nat} {key : String} {t : Tag} {σ σ' : Session}

/-- The form of the tags in a primitive. -/
def primitiveForm : Primitive → TagForm
  | .string => .text
  | .bool => .truth
  | p => .number (p.intKind?.getD .i32)

theorem form_of_literalTag {given : Option Literal} {p : Primitive} {l : Literal}
    (known : literalTag given index key p = some l) : (Tag.lit l).form = primitiveForm p := by
  unfold literalTag at known
  split at known
  case h_1 =>
    cases known
    rfl
  case h_2 => split at known <;> cases known <;> rfl
  case h_3 notText notTruth =>
    obtain ⟨kind, isKind, known⟩ := Option.bind_eq_some_iff.mp known
    have number : primitiveForm p = .number kind := by
      unfold primitiveForm
      split
      · exact (notText rfl).elim
      · exact (notTruth rfl).elim
      · rw [isKind, Option.getD_some]
    rw [number]
    split at known <;> cases known <;> rfl

/-- A tag is a name of the enumeration behind its shape, or a literal of the primitive there. -/
theorem tag_of_unionTag (ran : Gen.Runs (unionTag em tag tags index key) σ t σ') :
    (∃ backing entries type, tag.resolved σ.refs = .ok (.enum backing entries) ∧
      Gen.Runs (em.typeExpr tag) σ (.named type) σ' ∧
      t = .enum type (givenName (tags.lookup key) key)) ∨
    ∃ p l, tag.resolved σ.refs = .ok (.prim p) ∧
      literalTag (tags.lookup key) index key p = some l ∧ t = .lit l := by
  simp only [unionTag, Gen.runs_bind, Gen.runs_resolved] at ran
  obtain ⟨found, _, ⟨resolved, rfl⟩, ran⟩ := ran
  generalize tags.lookup key = given at ran ⊢
  split at ran
  case h_1 backing entries =>
    obtain ⟨type, σ₂, typed, ran⟩ := Gen.runs_bind.mp ran
    split at ran
    case h_1 type =>
      split at ran
      · obtain ⟨rfl, rfl⟩ := Gen.runs_pure.mp ran
        exact .inl ⟨backing, entries, type, resolved, typed, rfl⟩
      · exact (Gen.runs_throw.mp ran).elim
    case h_2 =>
      obtain ⟨_, _, _, ran⟩ := Gen.runs_bind.mp ran
      exact (Gen.runs_throw.mp ran).elim
  case h_2 =>
    obtain ⟨rfl, rfl⟩ := Gen.runs_pure.mp ran
    exact .inr ⟨.string, _, resolved, rfl, rfl⟩
  case h_3 =>
    refine .inr ⟨.bool, ?_⟩
    rcases given with _ | _ | _ | _ <;> obtain ⟨rfl, rfl⟩ := Gen.runs_pure.mp ran <;>
      exact ⟨_, resolved, rfl, rfl⟩
  case h_4 p notText notTruth =>
    split at ran
    case h_1 kind known =>
      refine .inr ⟨p, ?_⟩
      simp only [literalTag, known, Option.bind_some]
      split at ran
      · obtain ⟨rfl, rfl⟩ := Gen.runs_pure.mp ran
        exact ⟨_, resolved, rfl, rfl⟩
      · obtain ⟨_, _, _, ran⟩ := Gen.runs_bind.mp ran
        exact (Gen.runs_throw.mp ran).elim
      · obtain ⟨rfl, rfl⟩ := Gen.runs_pure.mp ran
        exact ⟨_, resolved, rfl, rfl⟩
    case h_2 =>
      obtain ⟨_, _, _, ran⟩ := Gen.runs_bind.mp ran
      exact (Gen.runs_throw.mp ran).elim
  case h_5 =>
    obtain ⟨_, _, _, ran⟩ := Gen.runs_bind.mp ran
    exact (Gen.runs_throw.mp ran).elim

/-- What is written for the tag of a variant depends on the schema alone. -/
theorem value_of_unionTag {em' : Emitter} {t' : Tag} {τ τ' : Session}
    (first : Gen.Runs (unionTag em tag tags index key) σ t σ')
    (second : Gen.Runs (unionTag em' tag tags index key) τ t' τ') (refs : τ.refs = σ.refs) :
    t'.value = t.value ∧ (t'.Fits ↔ t.Fits) := by
  rcases tag_of_unionTag first with
      ⟨_, _, type, resolved, _, rfl⟩ | ⟨p, l, resolved, known, rfl⟩ <;>
    rcases tag_of_unionTag second with
      ⟨_, _, type', resolved', _, rfl⟩ | ⟨p', l', resolved', known', rfl⟩ <;>
    cases (refs ▸ resolved').symm.trans resolved
  · exact ⟨rfl, .rfl⟩
  · cases known'.symm.trans known
    exact ⟨rfl, .rfl⟩

section Steady

variable {depth bound : Nat} {type type' : TypeExpr} {τ τ' : Session}

/-- A declared type goes by its name. -/
theorem type_of_declared (ordered : types.Ordered rank) (separate : types.Separate) {name : String}
    {inner : Shape} (declared : (name, tag) ∈ types)
    (form : tag = .alias name inner ∨ tag = .exported name inner)
    (ran : Gen.Runs ((emitter hooks depth).typeExpr tag) σ type σ') (refs : σ.refs = types) :
    type = .named name := by
  cases depth with
  | zero => exact (Gen.runs_throw.mp ran).elim
  | succ depth =>
    have orderly := orderly_emitter hooks ordered separate depth
    rcases form with rfl | rfl
    · obtain ⟨out, _, aliased, ran⟩ := Gen.runs_bind.mp ran
      obtain ⟨rfl, _⟩ := Gen.runs_pure.mp ran
      rw [(tame_declareAlias ordered separate orderly (.inl declared) _ _ _ aliased refs).2]
    · obtain ⟨out, _, aliased, ran⟩ := Gen.runs_bind.mp ran
      obtain ⟨_, _, _, ran⟩ := Gen.runs_bind.mp ran
      obtain ⟨rfl, _⟩ := Gen.runs_pure.mp ran
      rw [(tame_declareAlias ordered separate orderly (.inr declared) _ _ _ aliased refs).2]

/-- What is behind a reference goes by the label. -/
theorem type_of_ref (ordered : types.Ordered rank) (separate : types.Separate) {label : String}
    (declared : label ∈ types.map (·.1))
    (ran : Gen.Runs ((emitter hooks depth).typeExpr (.ref label)) σ type σ')
    (refs : σ.refs = types) : type = .named label := by
  cases depth with
  | zero => exact (Gen.runs_throw.mp ran).elim
  | succ depth =>
    obtain ⟨target, inner, found, member, form, _, _⟩ := ordered.target declared
    obtain ⟨_, _, asked, ran⟩ := Gen.runs_bind.mp ran
    obtain ⟨rfl, rfl⟩ := Gen.runs_refs.mp asked
    simp only [refs, found] at ran
    exact type_of_declared ordered separate member form ran refs

/-- An enumeration goes by one name for as long as constants are kept. -/
theorem type_steady (ordered : types.Ordered rank) (separate : types.Separate)
    (wf : tag.WellFormed types rank bound) {backing : Primitive} {entries : List (String × Int)}
    (enumerates : tag.resolved types = .ok (.enum backing entries))
    (first : Gen.Runs ((emitter hooks depth).typeExpr tag) σ type σ') (refs : σ.refs = types)
    (second : Gen.Runs ((emitter hooks depth).typeExpr tag) τ type' τ') (refs' : τ.refs = types)
    (keeps : σ'.registry.Keeps τ.registry) : type = type' := by
  -- A type with a name goes by it; only an enumeration without one is looked up.
  cases Shape.resolves_of_resolved enumerates with
  | direct =>
    cases depth with
    | zero => exact (Gen.runs_throw.mp first).elim
    | succ depth =>
      obtain ⟨name, _, first, same⟩ := Gen.runs_bind.mp first
      obtain ⟨rfl, rfl⟩ := Gen.runs_pure.mp same
      obtain ⟨name', _, second, same⟩ := Gen.runs_bind.mp second
      obtain ⟨rfl, rfl⟩ := Gen.runs_pure.mp same
      have one : Advances hooks types σ σ' ∧ _ :=
        advances_enumName ordered separate wf.2 first refs
      have two : Advances hooks types τ τ' ∧ _ :=
        advances_enumName ordered separate wf.2 second refs'
      -- The second run finds the constant that the first one left in the registry.
      have kept := two.1.grows.keeps _ _ (keeps _ _ one.2.2)
      rw [Option.some.inj (kept.symm.trans two.2.2)]
  | «alias» =>
    rw [type_of_declared ordered separate wf.1 (.inl rfl) first refs,
      type_of_declared ordered separate wf.1 (.inl rfl) second refs']
  | exported =>
    rw [type_of_declared ordered separate wf.1 (.inr rfl) first refs,
      type_of_declared ordered separate wf.1 (.inr rfl) second refs']
  | ref =>
    rw [type_of_ref ordered separate wf.1 first refs,
      type_of_ref ordered separate wf.1 second refs']

/-- Tags of one union are of one form for as long as constants are kept. -/
theorem form_steady (ordered : types.Ordered rank) (separate : types.Separate)
    (wf : tag.WellFormed types rank bound) {index' : Nat} {key' : String} {t' : Tag}
    (first : Gen.Runs (unionTag (emitter hooks depth) tag tags index key) σ t σ')
    (refs : σ.refs = types)
    (second : Gen.Runs (unionTag (emitter hooks depth) tag tags index' key') τ t' τ')
    (refs' : τ.refs = types) (keeps : σ'.registry.Keeps τ.registry) : t.form = t'.form := by
  have one := tag_of_unionTag first
  have two := tag_of_unionTag second
  rw [refs] at one
  rw [refs'] at two
  rcases one with ⟨_, _, type, resolved, typed, rfl⟩ | ⟨p, l, resolved, known, rfl⟩ <;>
    rcases two with ⟨_, _, type', resolved', typed', rfl⟩ | ⟨p', l', resolved', known', rfl⟩ <;>
    cases resolved.symm.trans resolved'
  · cases type_steady ordered separate wf resolved typed refs typed' refs' keeps
    rfl
  · rw [form_of_literalTag known, form_of_literalTag known']

end Steady

/-- The tag of a variant with its position, asked for after the registry `r` was reached. -/
def AskedAfter (types : Refs) (em : Emitter) (tag : Shape) (tags : List (String × Literal))
    (r : Registry) (variant : (String × Shape) × Nat) (t : Tag) : Prop :=
  ∃ σ σ', Gen.Runs (unionTag em tag tags variant.2 variant.1.1) σ t σ' ∧ σ.refs = types ∧
    r.Keeps σ.registry

theorem AskedAfter.earlier {r r' : Registry} {variant : (String × Shape) × Nat}
    (asked : AskedAfter types em tag tags r' variant t) (keeps : r.Keeps r') :
    AskedAfter types em tag tags r variant t := by
  obtain ⟨σ, σ', ran, refs, kept⟩ := asked
  exact ⟨σ, σ', ran, refs, keeps.trans kept⟩

/-- The arms of a decoder are those of the tags `values`, which are different and of one form; none
of them is in `seen`. -/
structure Tagged (types : Refs) (em : Emitter) (tag : Shape) (tags : List (String × Literal))
    (r : Registry) (variants : List ((String × Shape) × Nat)) (seen values : List Tag)
    (arms : List (Pattern × List Stmt)) : Prop where
  asked : List.Forall₂ (AskedAfter types em tag tags r) variants values
  patterns : List.Forall₂ (fun t arm => arm.1 = t.pattern) values arms
  distinct : values.Nodup
  unseen : ∀ t ∈ values, t ∉ seen
  alike : ∀ t ∈ values, ∀ other ∈ values, t.form = other.form

theorem tagged_of_decodeArms (ordered : types.Ordered rank) (separate : types.Separate)
    {depth bound : Nat} (wf : tag.WellFormed types rank bound) {variants : List (String × Shape)}
    (payloads : Shape.WellFormedVariants types rank bound variants) {type : String} {result : Local}
    {seen : List Tag} {arms : List (Pattern × List Stmt)}
    (ran : Gen.Runs (decodeArms (emitter hooks depth) type tag tags result seen index variants)
      σ arms σ') (refs : σ.refs = types) :
    ∃ values, Tagged types (emitter hooks depth) tag tags σ.registry (variants.zipIdx index) seen
      values arms := by
  have orderly := orderly_emitter hooks ordered separate depth
  induction variants generalizing seen index σ arms with
  | nil =>
    obtain ⟨rfl, _⟩ := Gen.runs_pure.mp ran
    exact ⟨[], .nil, .nil, List.nodup_nil, nofun, nofun⟩
  | cons variant rest ih =>
    obtain ⟨t, σ₁, asked, ran⟩ := Gen.runs_bind.mp ran
    split at ran
    case isTrue =>
      obtain ⟨_, _, refused, _⟩ := Gen.runs_bind.mp ran
      exact (Gen.runs_throw.mp refused).elim
    case isFalse fresh =>
      obtain ⟨block, σ₂, captured, ran⟩ := Gen.runs_bind.mp ran
      obtain ⟨others, σ₃, later, ran⟩ := Gen.runs_bind.mp ran
      obtain ⟨rfl, rfl⟩ := Gen.runs_pure.mp ran
      have step := (tame_unionTag orderly (.inl ⟨bound, wf⟩) _ _ _ asked refs).1
      have payload : Tame hooks types (do
          return Expr.variant type variant.1
            (← decodePayload (emitter hooks depth) variant.1 variant.2)) fun _ => True :=
        (tame_decodePayload ordered orderly payloads.2.1).bind fun _ _ => tame_pure trivial
      have step' := (payload.captureBlock _ _ _ captured step.refs).1
      obtain ⟨values, tagged⟩ := ih payloads.2.2 later step'.refs
      -- The tags of the other variants are asked for later, so they have the form of this one.
      have same : ∀ other ∈ values, t.form = other.form := by
        intro other member
        obtain ⟨_, _, τ, τ', asked', refs', keeps⟩ := exists_rel_of_mem tagged.asked member
        exact form_steady ordered separate wf asked refs asked' refs'
          (step'.grows.keeps.trans keeps)
      have keeps := step.grows.keeps.trans step'.grows.keeps
      refine ⟨t :: values, ?_, .cons rfl tagged.patterns, ?_, ?_, ?_⟩
      · rw [List.zipIdx_cons]
        refine .cons ⟨σ, σ₁, asked, refs, fun _ _ known => known⟩ ?_
        exact tagged.asked.imp fun _ _ later => later.earlier keeps
      · exact List.nodup_cons.mpr
          ⟨fun member => tagged.unseen t member (List.mem_cons_self ..), tagged.distinct⟩
      · refine List.forall_mem_cons.mpr ⟨by simpa using fresh, fun other member known => ?_⟩
        exact tagged.unseen other member (List.mem_cons_of_mem _ known)
      · refine List.forall_mem_cons.mpr ⟨List.forall_mem_cons.mpr ⟨rfl, same⟩, ?_⟩
        exact fun other member =>
          List.forall_mem_cons.mpr ⟨(same other member).symm, tagged.alike other member⟩

/-- What an encoder writes for the tag of a variant selects that variant in the decoder of the
union, if the type of the tag holds what was given; otherwise it is never taken for that tag. -/
theorem union_tag_selects_variant (ordered : types.Ordered rank) (separate : types.Separate)
    {depth bound : Nat} {variants : List (String × Shape)} {tagField : String}
    (wf : (Shape.union tagField tag variants tags).WellFormed types rank bound) {type : String}
    {result : Local} {arms : List (Pattern × List Stmt)}
    (ran : Gen.Runs (decodeArms (emitter hooks depth) type tag tags result [] 0 variants) σ arms σ')
    (refs : σ.refs = types) {k : Nat} {payload : Shape} {pattern : Pattern} {body : List Stmt}
    (variant : variants[k]? = some (key, payload)) (arm : arms[k]? = some (pattern, body))
    {τ τ' : Session} (asked : Gen.Runs (unionTag em tag tags k key) τ t τ')
    (refs' : τ.refs = types) :
    (∀ p, Run.eval p t.expr = pure t.value) ∧
    (t.Fits → ∀ p fallback, Run.execArms p t.value fallback arms = Run.execBlock p body) ∧
    (Run.matchBindings t.value pattern = some [] ↔ t.Fits) := by
  obtain ⟨values, tagged⟩ := tagged_of_decodeArms ordered separate wf.1 wf.2.2 ran refs
  obtain ⟨inside, here⟩ := List.getElem?_eq_some_iff.mp variant
  obtain ⟨there, shown⟩ := List.getElem?_eq_some_iff.mp arm
  have known : k < values.length := by rwa [tagged.patterns.length_eq]
  have placed : k < (variants.zipIdx 0).length := by rwa [List.length_zipIdx]
  have own : pattern = values[k].pattern := by
    have paired : arms[k].1 = values[k].pattern := tagged.patterns.get known there
    rwa [shown] at paired
  obtain ⟨_, _, asked', same, _⟩ := tagged.asked.get placed known
  simp only [List.get_eq_getElem, List.getElem_zipIdx, Nat.zero_add, here] at asked'
  obtain ⟨value, fits⟩ := value_of_unionTag asked' asked (refs'.trans same.symm)
  refine ⟨fun p => t.eval_expr p, ?_⟩
  rw [value, fits, own]
  refine ⟨fun fits p fallback => ?_, values[k].matchBindings_own⟩
  refine execArms_of_tags tagged.patterns tagged.distinct tagged.alike ?_ fits p fallback
  have both : k < (values.zip (arms.map (·.2))).length := by
    rw [List.length_zip, List.length_map]
    exact Nat.lt_min.mpr ⟨known, there⟩
  refine List.mem_iff_getElem.mpr ⟨k, both, ?_⟩
  rw [List.getElem_zip, List.getElem_map, shown]

-- A tag 256 in one byte is written as the tag 0 of another variant.
example : (Tag.lit (.int 256 .u8)).value.asInt? = (Tag.lit (.int 0 .u8)).value.asInt? := by decide

end WireSchema.Lowering
