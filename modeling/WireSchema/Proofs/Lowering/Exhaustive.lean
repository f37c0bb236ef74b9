import Mathlib.Data.Finset.Card
import WireSchema.Proofs.Lowering.Selection

/-!
# Unions without a fallback

A decoder of a union has no fallback if every name of the enumeration of its tag is shown by a
variant, where an integer or a truth value that was given for a variant shows its key. Such a variant
is selected by another name than the one it shows. The names that select variants are different and
belong to the enumeration, though, and there are as many of them as of those that are shown; so none
is left out.

What the decoder reads is a name of that enumeration if it reads the tag with the declaration of its
type. A declaration of another exported type whose codec has the same name is not such a declaration,
and its names may select nothing.

## Main results

* `covers_of_nodup`: as many different names as are needed cover all of them.
* `execArms_of_entry`: each name of the enumeration selects an arm.
* `decodeUnion_selects`: a decoder without a fallback finds an arm for whatever name it reads.
-/

namespace WireSchema.Lowering

open Ir

/-- Different names among the `entries` are all of them, if no more than as many are needed to show
every entry. -/
theorem covers_of_nodup {names entries shown : List String} (distinct : names.Nodup)
    (within : names ⊆ entries) (covered : entries ⊆ shown) (fit : shown.length ≤ names.length) :
    entries ⊆ names := by
  have inside : names.toFinset ⊆ entries.toFinset := fun name => by simpa using @within name
  have enough : entries.toFinset.card ≤ names.toFinset.card := by
    calc entries.toFinset.card
      _ ≤ shown.toFinset.card := Finset.card_le_card fun name => by simpa using @covered name
      _ ≤ shown.length := shown.toFinset_card_le
      _ ≤ names.length := fit
      _ = names.toFinset.card := (List.toFinset_card_of_nodup distinct).symm
  have same := Finset.eq_of_subset_of_card_le inside enough
  intro name member
  rw [← List.mem_toFinset, same]
  exact List.mem_toFinset.mpr member

variable {hooks : Hooks} {types : Refs} {rank : String → Nat} {em : Emitter} {tag : Shape}
  {tags : List (String × Literal)} {index : Nat} {key : String} {t : Tag} {σ σ' : Session}
  {backing : Primitive} {entries : List (String × Int)} {variants : List (String × Shape)}
  {r : Registry} {seen values : List Tag} {arms : List (Pattern × List Stmt)}

/-! ### Names that select -/

/-- The name of a tag, if it is one of an enumeration. -/
def Tag.name? : Tag → Option String
  | .enum _ name => some name
  | .lit _ => none

theorem Tag.eq_of_name? {t other : Tag} (alike : t.form = other.form) {name : String}
    (own : t.name? = some name) (same : other.name? = t.name?) : t = other := by
  rw [own] at same
  match t, other with
  | .enum type name, .enum type' name' =>
    cases alike
    cases own
    cases same
    rfl

theorem enum_of_unionTag (enumerates : tag.resolved σ.refs = .ok (.enum backing entries))
    (ran : Gen.Runs (unionTag em tag tags index key) σ t σ') :
    t.name? = some (givenName (tags.lookup key) key) ∧
      givenName (tags.lookup key) key ∈ entries.map (·.1) := by
  simp only [unionTag, Gen.runs_bind, Gen.runs_resolved] at ran
  obtain ⟨found, _, ⟨resolved, rfl⟩, ran⟩ := ran
  cases enumerates.symm.trans resolved
  obtain ⟨type, _, _, ran⟩ := Gen.runs_bind.mp ran
  split at ran
  case h_1 =>
    split at ran
    case isTrue member =>
      obtain ⟨rfl, _⟩ := Gen.runs_pure.mp ran
      obtain ⟨entry, inside, same⟩ := List.any_eq_true.mp member
      exact ⟨rfl, List.mem_map.mpr ⟨entry, inside, eq_of_beq same⟩⟩
    case isFalse => exact (Gen.runs_throw.mp ran).elim
  case h_2 =>
    obtain ⟨_, _, _, ran⟩ := Gen.runs_bind.mp ran
    exact (Gen.runs_throw.mp ran).elim

/-- The names that select the variants of a union whose tag is an enumeration. -/
theorem Tagged.names (tagged : Tagged types em tag tags r (variants.zipIdx index) seen values arms)
    (enumerates : tag.resolved types = .ok (.enum backing entries)) :
    values.map Tag.name? = (variants.map fun v => givenName (tags.lookup v.1) v.1).map some ∧
      ∀ v ∈ variants, givenName (tags.lookup v.1) v.1 ∈ entries.map (·.1) := by
  have each (variant : (String × Shape) × Nat) (t : Tag)
      (asked : AskedAfter types em tag tags r variant t) :
      t.name? = some (givenName (tags.lookup variant.1.1) variant.1.1) ∧
        givenName (tags.lookup variant.1.1) variant.1.1 ∈ entries.map (·.1) := by
    obtain ⟨σ, _, ran, refs, _⟩ := asked
    exact enum_of_unionTag (refs ▸ enumerates) ran
  constructor
  · rw [← map_eq_of_rel tagged.asked fun variant t asked => (each variant t asked).1.symm,
      List.map_map]
    conv_rhs => rw [← List.zipIdx_map_fst index variants, List.map_map]
    rfl
  · intro v member
    rw [← List.zipIdx_map_fst index variants, List.mem_map] at member
    obtain ⟨variant, inside, rfl⟩ := member
    obtain ⟨t, _, asked⟩ := exists_rel_of_mem tagged.asked.flip inside
    exact (each variant t asked).2

/-- A tag of the union has an arm, which it selects. -/
theorem Tagged.selects (tagged : Tagged types em tag tags r (variants.zipIdx index) seen values arms)
    (member : t ∈ values) (fits : t.Fits) :
    ∃ arm ∈ arms, arm.1 = t.pattern ∧
      ∀ p fallback, Run.execArms p t.value fallback arms = Run.execBlock p arm.2 := by
  obtain ⟨k, inside, rfl⟩ := List.mem_iff_getElem.mp member
  have there : k < arms.length := by rwa [← tagged.patterns.length_eq]
  refine ⟨arms[k], List.getElem_mem there, tagged.patterns.get inside there, ?_⟩
  refine execArms_of_tags tagged.patterns tagged.distinct tagged.alike ?_ fits
  have both : k < (values.zip (arms.map (·.2))).length := by
    rw [List.length_zip, List.length_map]
    exact Nat.lt_min.mpr ⟨inside, there⟩
  refine List.mem_iff_getElem.mpr ⟨k, both, ?_⟩
  rw [List.getElem_zip, List.getElem_map]

/-! ### Names that are shown -/

/-- The name that a variant shows when a decoder decides about a fallback. -/
def shownName (given : Option Literal) (key : String) : String :=
  match given with
  | some (.str s) => s
  | _ => key

theorem shown_of_tagIsExhaustive {full : Bool}
    (enumerates : tag.resolved σ.refs = .ok (.enum backing entries))
    (ran : Gen.Runs (tagIsExhaustive tag variants tags) σ full σ') :
    σ' = σ ∧ (full = true → entries.map (·.1) ⊆ variants.map fun v =>
      shownName (tags.lookup v.1) v.1) := by
  simp only [tagIsExhaustive, Gen.runs_bind, Gen.runs_resolved] at ran
  obtain ⟨found, _, ⟨resolved, rfl⟩, ran⟩ := ran
  cases enumerates.symm.trans resolved
  obtain ⟨rfl, rfl⟩ := Gen.runs_pure.mp ran
  refine ⟨rfl, fun full name member => ?_⟩
  obtain ⟨entry, inside, rfl⟩ := List.mem_map.mp member
  obtain ⟨v, among, shows⟩ := List.any_eq_true.mp (List.all_eq_true.mp full entry inside)
  refine List.mem_map.mpr ⟨v, among, ?_⟩
  split at shows
  case h_1 s given => rw [given, shownName, eq_of_beq shows]
  case h_2 other =>
    rw [shownName]
    · exact eq_of_beq shows
    · exact other

/-! ### Names that are read -/

/-- If the variants show each name of the enumeration, each name selects an arm. -/
theorem execArms_of_entry
    (tagged : Tagged types em tag tags r (variants.zipIdx index) seen values arms)
    (enumerates : tag.resolved types = .ok (.enum backing entries))
    (shown : entries.map (·.1) ⊆ variants.map fun v => shownName (tags.lookup v.1) v.1)
    {name : String} (member : name ∈ entries.map (·.1)) :
    ∃ arm ∈ arms, (∃ type, arm.1 = .enum type name) ∧
      ∀ p fallback, Run.execArms p (.enum name) fallback arms = Run.execBlock p arm.2 := by
  obtain ⟨named, within⟩ := tagged.names enumerates
  generalize own : (variants.map fun v => givenName (tags.lookup v.1) v.1) = names at named
  -- Tags of one union are distinct and of one form, so their names are distinct.
  have distinct : names.Nodup := by
    refine List.Nodup.of_map some (named ▸ List.Nodup.map_on ?_ tagged.distinct)
    intro t inside other there same
    have known : t.name? ∈ names.map some := named ▸ List.mem_map_of_mem inside
    obtain ⟨name, _, isName⟩ := List.mem_map.mp known
    exact Tag.eq_of_name? (tagged.alike t inside other there) isName.symm same.symm
  -- There is one name for each variant, whichever name the variant shows.
  have covers : entries.map (·.1) ⊆ names := covers_of_nodup distinct ?_ shown ?_
  · have selecting : some name ∈ values.map Tag.name? :=
      named ▸ List.mem_map_of_mem (covers member)
    obtain ⟨t, inside, isName⟩ := List.mem_map.mp selecting
    match t with
    | .enum type _ =>
      cases isName
      obtain ⟨arm, among, pattern, selects⟩ := tagged.selects inside trivial
      exact ⟨arm, among, ⟨type, pattern⟩, selects⟩
  · rintro name among
    rw [← own, List.mem_map] at among
    obtain ⟨v, inside, rfl⟩ := among
    exact within v inside
  · rw [← own, List.length_map, List.length_map]

/-- What is read for an enumeration is one of its names. -/
theorem mem_of_nameOfId {g : Generated} {type : String} {d : EnumDecl}
    (declared : Run.enumOf g type = pure d) {v out : Value} {m n : Machine}
    (read : Run.nameOfId g type v m = .ok (out, n)) :
    ∃ name ∈ d.entries.map (·.1), out = .enum name := by
  rw [Run.nameOfId, declared, Run.asInteger] at read
  cases isInt : v.asInt? <;> cases isKind : v.intKind? <;> rw [isInt, isKind] at read
  case some.some id kind =>
    cases found : d.nameOf? id with
    | none =>
      simp only [pure_bind, found] at read
      cases read
    | some name =>
      simp only [pure_bind, found] at read
      cases read
      obtain ⟨entry, first, rfl⟩ := Option.map_eq_some_iff.mp found
      exact ⟨entry.1, List.mem_map_of_mem (List.mem_of_find?_eq_some first), rfl⟩
  all_goals cases read

/-- If the decoder of a union has no fallback, every name that it reads with a declaration of the
enumeration of its tag selects an arm. -/
theorem decodeUnion_selects (ordered : types.Ordered rank) (separate : types.Separate)
    {depth bound : Nat} {tagField : String}
    (wf : (Shape.union tagField tag variants tags).WellFormed types rank bound)
    (enumerates : tag.resolved types = .ok (.enum backing entries)) {e : Expr}
    (ran : Gen.Runs (decodeUnion (emitter hooks depth) tagField tag variants tags) σ e σ')
    (refs : σ.refs = types) :
    ∃ d value arms fallback, σ'.draft = Draft.emit d (.select (.var value) arms fallback) ∧
      (fallback = none → ∀ p type read v m n (decl : EnumDecl), decl.entries = entries →
        Run.enumOf p.code type = pure decl → Run.nameOfId p.code type read m = .ok (v, n) →
        ∃ arm ∈ arms, Run.execArms p v fallback arms = Run.execBlock p arm.2) := by
  -- The steps of the decoder are taken one by one; all of them keep the references.
  have orderly := orderly_emitter hooks ordered separate depth
  have shape : tag.IsFieldShape types rank := .inl ⟨bound, wf.1⟩
  obtain ⟨type, σ₁, named, ran⟩ := Gen.runs_bind.mp ran
  have refs₁ := (tame_unionName ordered separate orderly wf _ _ _ named refs).1.refs
  obtain ⟨value, σ₂, declared, ran⟩ := Gen.runs_bind.mp ran
  have refs₂ := ((orderly.decodeExpr tag shape).declare.withHint _ _ _ declared refs₁).1.refs
  obtain ⟨hint, σ₃, hinted, ran⟩ := Gen.runs_bind.mp ran
  have refs₃ := (tame_lastHint _ _ _ hinted refs₂ : Advances hooks types _ _ ∧ _).1.refs
  obtain ⟨result, σ₄, deferred, ran⟩ := Gen.runs_bind.mp ran
  have refs₄ := (tame_declareDeferred _ _ _ deferred refs₃ : Advances hooks types _ _ ∧ _).1.refs
  obtain ⟨arms, σ₅, armed, ran⟩ := Gen.runs_bind.mp ran
  have refs₅ := (tame_decodeArms ordered orderly shape wf.2.2 _ _ _ _ _ armed refs₄).1.refs
  obtain ⟨full, σ₆, decided, ran⟩ := Gen.runs_bind.mp ran
  obtain ⟨_, σ₇, emitted, ran⟩ := Gen.runs_bind.mp ran
  obtain ⟨_, rfl⟩ := Gen.runs_pure.mp ran
  cases Gen.runs_emit.mp emitted
  obtain ⟨rfl, shown⟩ := shown_of_tagIsExhaustive (refs₅ ▸ enumerates) decided
  refine ⟨σ₆.draft, value, arms, _, rfl, fun none p type read v m n decl same declared reads => ?_⟩
  obtain ⟨values, tagged⟩ := tagged_of_decodeArms ordered separate wf.1 wf.2.2 armed refs₄
  obtain ⟨name, member, rfl⟩ := mem_of_nameOfId declared reads
  -- Without a fallback the decoder has found the variants to be exhaustive.
  have full : full = true := by
    by_contra open_
    rw [if_neg open_] at none
    cases none
  obtain ⟨arm, among, _, selects⟩ :=
    execArms_of_entry tagged enumerates (shown full) (same ▸ member)
  exact ⟨arm, among, selects p _⟩

end WireSchema.Lowering
