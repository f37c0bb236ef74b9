import WireSchema.Proofs.Decoding.Pieces
import WireSchema.Proofs.Lowering.Exhaustive

/-!
# Fragments for unions

The tag of a union is read and bound, and an arm is run for it. The arms take the tags as the layout
does: the first variant that the tag selects is read. A union without a fallback has an arm for every
tag that can be read.
-/

namespace WireSchema

open Ir Wire Lowering

namespace Decoding

/-- A variant with its members, from their read. -/
def variant (key : String) (members : Read (List (String × Value))) : Read Value := do
  let members ← members
  return .variant key (if members.isEmpty then none else some (.ofFields members))

section Payloads

variable {C : Programs} {low high : Nat} {stmts : List Stmt} {e : Expr} {order : ByteOrder}
  {target : String → Layout.Part} {reads : Read (List (String × Value))}

/-- The members that are read go by the names of the stored fields. -/
theorem yields_fieldsWith (fields : List Field) :
    Yields (Layout.fieldsWith order target fields) fun members =>
      members.map (·.1) = (fields.filter (·.shape.isStored)).map (·.name) := by
  induction fields with
  | nil =>
    rw [Layout.fieldsWith]
    exact yields_pure rfl
  | cons f rest ih =>
    rw [Layout.fieldsWith]
    refine Yields.bind fun v => ih.after fun others named => yields_pure ?_
    cases stored : f.shape.isStored <;> simp [stored, named]

/-- A payload without members is read and forgotten. -/
theorem BindsAll.bare {bindings : List (String × Local)}
    (binds : BindsAll C reads low high stmts bindings) (empty : Yields reads (· = []))
    (type key : String) : Decodes C (variant key reads) low high ⟨stmts, .variant type key none⟩ where
  closed := binds.closed
  sorted := by simp [Expr.WellSorted, Expr.nodes, Expr.nodesOption, Expr.Safe]
  run p holds m reader stream := by
    rw [Probe.evalBlock, variant]
    refine (binds.run p holds m reader stream).bind fun _ members m₁ reader₁ _ ran stream₁ _ => ?_
    cases empty _ _ _ ran
    exact Probe.mirrors_pure stream₁ rfl

/-- A payload with members is the struct of them. -/
theorem Decodes.variant (decodes : Decodes C (do return .ofFields (← reads)) low high ⟨stmts, e⟩)
    (filled : Yields reads (· ≠ [])) (type key : String) :
    Decodes C (variant key reads) low high ⟨stmts, .variant type key (some e)⟩ where
  closed := decodes.closed
  sorted := by
    intro n node
    rcases List.mem_cons.mp node with rfl | inner
    · trivial
    · exact decodes.sorted n inner
  run p holds m reader stream := by
    have whole : Probe.evalBlock p ⟨stmts, .variant type key (some e)⟩ =
        Probe.evalBlock p ⟨stmts, e⟩ >>= fun v => pure (.variant key (some v)) := by
      simp [Probe.evalBlock, Probe.eval, Probe.evalOption]
    rw [whole, Decoding.variant]
    refine (Probe.mirrors_map.mp (decodes.run p holds m reader stream)).bind
      fun v members m₁ reader₁ _ ran stream₁ same => ?_
    have some : members.isEmpty = false := by simpa using filled _ _ _ ran
    refine Probe.mirrors_pure stream₁ ?_
    rw [same, some]
    rfl

end Payloads

/-! ### Tags -/

/-- The values that are read for a tag of this shape. -/
def IsTagOf : Shape → Value → Prop
  | .enum _ entries => fun v => ∃ name ∈ entries.map (·.1), v = .enum name
  | .prim .bool => fun v => ∃ b, v = .bool b
  | .prim .string => fun v => ∃ s, v = .str s
  | .prim p => fun v => v.intKind? = p.intKind?
  | _ => fun _ => True

theorem yields_tag (order : ByteOrder) (target : String → Layout.Part) (tag : Shape) :
    Yields (Layout.valueWith order target tag) (IsTagOf tag) := by
  unfold IsTagOf
  split
  · rw [Layout.valueWith]
    refine Yields.bind fun id => ?_
    split
    · next entry found =>
      exact yields_pure ⟨_, List.mem_map_of_mem (List.mem_of_find?_eq_some found), rfl⟩
    · exact yields_throw
  · rw [Layout.valueWith]
    exact yields_read_bool order
  · rw [Layout.valueWith]
    exact yields_read_string order
  · rw [Layout.valueWith]
    exact yields_kind order _
  · exact fun _ _ _ _ => trivial

theorem tagName_eq (given : Option Literal) (key : String) :
    Layout.tagName given key = givenName given key := by
  rcases given with _ | (_ | _ | _) <;> rfl

/-- The literal of a variant is found where the layout selects the variant. -/
theorem isLiteral_literalTag {given : Option Literal} {index : Nat} {key : String} {p : Primitive}
    {l : Literal} (known : literalTag given index key p = some l) {v : Value}
    (is : IsTagOf (.prim p) v) : v.isLiteral l = Layout.selects v given index key := by
  unfold literalTag at known
  split at known
  case h_1 =>
    obtain ⟨s, rfl⟩ := is
    cases known
    simp [Value.isLiteral, Value.asStr?, Layout.selects, tagName_eq]
  case h_2 =>
    obtain ⟨b, rfl⟩ := is
    rcases given with _ | (_ | _ | _) <;> cases known <;>
      simp [Value.isLiteral, Value.asBool?, Layout.selects]
  case h_3 notText notTruth =>
    obtain ⟨kind, isKind, known⟩ := Option.bind_eq_some_iff.mp known
    have typed : v.intKind? = p.intKind? := by
      cases p <;> first | exact is | cases isKind
    rw [isKind] at typed
    cases v with
    | int _ bits =>
      rcases given with _ | (_ | _ | _) <;> cases known <;> simp [Value.isLiteral, Layout.selects]
    | _ => cases typed

/-- The pattern of a tag has no bindings and takes the values that the layout selects its variant by.
-/
theorem matchBindings_tag {em : Emitter} {tag : Shape} {tags : List (String × Literal)} {index : Nat}
    {key : String} {t : Tag} {σ σ' : Session}
    (ran : Gen.Runs (unionTag em tag tags index key) σ t σ') {v : Value}
    (is : ∀ found, tag.resolved σ.refs = .ok found → IsTagOf found v) :
    Run.matchBindings v t.pattern =
      if Layout.selects v (tags.lookup key) index key then some [] else none := by
  rcases tag_of_unionTag ran with
    ⟨backing, entries, type, resolved, _, rfl⟩ | ⟨p, l, resolved, known, rfl⟩
  · obtain ⟨name, _, rfl⟩ := is _ resolved
    simp [Tag.pattern, Run.matchBindings, Layout.selects, tagName_eq]
  · rw [← isLiteral_literalTag known (is _ resolved)]
    rfl

/-- The tag of a variant is the value that selects it. -/
theorem value_of_selects {em : Emitter} {tag : Shape} {tags : List (String × Literal)} {index : Nat} {key : String}
    {t : Tag} {σ σ' : Session} (ran : Gen.Runs (unionTag em tag tags index key) σ t σ') {v : Value}
    (is : ∀ found, tag.resolved σ.refs = .ok found → IsTagOf found v)
    (selected : Layout.selects v (tags.lookup key) index key = true) : t.value = v := by
  rcases tag_of_unionTag ran with
    ⟨backing, entries, type, resolved, _, rfl⟩ | ⟨p, l, resolved, known, rfl⟩
  · obtain ⟨name, _, rfl⟩ := is _ resolved
    rw [Layout.selects, beq_iff_eq, tagName_eq] at selected
    rw [Tag.value, selected]
  · have typed := is _ resolved
    generalize tags.lookup key = given at known selected
    unfold literalTag at known
    split at known
    case h_1 =>
      obtain ⟨s, rfl⟩ := typed
      cases known
      rw [Layout.selects, beq_iff_eq, tagName_eq] at selected
      rw [selected]
      rfl
    case h_2 =>
      obtain ⟨b, rfl⟩ := typed
      rcases given with _ | (_ | _ | _) <;> cases known <;>
        exact congrArg Value.bool (eq_of_beq selected).symm
    case h_3 notText notTruth =>
      obtain ⟨kind, isKind, known⟩ := Option.bind_eq_some_iff.mp known
      have same : v.intKind? = p.intKind? := by
        cases p <;> first | exact typed | cases isKind
      rw [isKind] at same
      cases v with
      | int own bits =>
        cases same
        have written (n : Int) (seen : (Value.int kind bits).asInt? = some n) :
            (Tag.lit (.int n kind)).value = .int kind bits := by
          cases seen
          exact congrArg (Value.int kind) (kind.ofInt_view bits)
        rcases given with _ | (_ | _ | _) <;> cases known <;> exact written _ (eq_of_beq selected)
      | _ => cases same

section

variable (C : Programs) (order : ByteOrder) (target : String → Layout.Part)
  (tags : List (String × Literal)) (result : Local) (known : Value → Prop)

/-- The arms of variants, from the `index`-th on: each is for those tags that the layout selects the
variant by, among the `known` values, and assigns what the layout reads for the variant. -/
inductive Arms : Nat → Nat → Nat → List (String × Shape) → List (Pattern × List Stmt) → Prop where
  | nil (index n : Nat) : Arms index n n [] []
  | cons {index low mid high : Nat} {key : String} {payload : Shape} {pattern : Pattern}
      {block : Block} {rest : List (String × Shape)} {arms : List (Pattern × List Stmt)}
      (plain : pattern.binding? = none)
      (picks : ∀ v, known v → Run.matchBindings v pattern =
        if Layout.selects v (tags.lookup key) index key then some [] else none)
      (decodes : Decodes C (variant key (Layout.membersWith order target payload)) low mid block)
      (others : Arms (index + 1) mid high rest arms) :
      Arms index low high ((key, payload) :: rest)
        ((pattern, block.stmts ++ [.assign result block.result]) :: arms)

end

variable {C : Programs} {low mid high : Nat} {front : List Stmt} {order : ByteOrder}
  {read : Read Value} {target : String → Layout.Part} {tags : List (String × Literal)}
  {result value : Local}
  {known : Value → Prop} {index : Nat} {variants : List (String × Shape)}
  {arms : List (Pattern × List Stmt)} {type : String} {fallback : Option Failure}

/-- A fallback tells of the tag, and is only left out if each known tag has an arm. -/
def Covers (known : Value → Prop) (type : String) (value : Local)
    (arms : List (Pattern × List Stmt)) (fallback : Option Failure) : Prop :=
  fallback = some (.unknownTag type (.var value)) ∨
    fallback = none ∧ ∀ v, known v → ∃ arm ∈ arms, Run.matchBindings v arm.1 ≠ none

/-- For a known tag the arms read what the layout reads for the variant that the tag selects. -/
theorem Arms.mirrors (made : Arms C order target tags result known index low high variants arms)
    {p : Program} (holds : C.holds p) {v : Value} (isKnown : known v) {m : Machine}
    {reader : Reader} (stream : m.stream = .input reader) (held : m.env.get? value.id = some v)
    (covers : fallback = some (.unknownTag type (.var value)) ∨
      fallback = none ∧ ∃ arm ∈ arms, Run.matchBindings v arm.1 ≠ none) :
    Probe.Mirrors (Probe.execArms p v fallback arms m)
      ((Layout.variantsWith order target v tags index variants).run reader)
      fun _ w m' => m'.env.get? result.id = some w := by
  induction made with
  | nil =>
    rcases covers with rfl | ⟨_, arm, member, _⟩
    · rw [Probe.execArms, Layout.variantsWith]
      exact Probe.mirrors_throw (Probe.raise_unknownTag type held) rfl
    · cases member
  | @cons index _ _ _ key payload pattern block rest arms plain picks decodes others ih =>
    have picked := picks v isKnown
    rw [Layout.variantsWith]
    by_cases selected : Layout.selects v (tags.lookup key) index key = true
    · -- The arm of the variant has no bindings to set, and is run.
      rw [if_pos selected] at picked ⊢
      simp only [Probe.execArms, picked, Probe.forEach, pure_bind]
      rw [execBlock_assign]
      exact (decodes.run p holds m reader stream).set result
    · rw [if_neg selected] at picked ⊢
      simp only [Probe.execArms, picked]
      refine ih (covers.imp_right ?_)
      rintro ⟨bare, arm, member, matched⟩
      refine ⟨bare, arm, ?_, matched⟩
      -- An arm that matches is one of the others.
      rcases List.mem_cons.mp member with rfl | later
      · exact absurd picked matched
      · exact later

theorem Arms.range (made : Arms C order target tags result known index low high variants arms)
    (e : Expr) (fallback : Option Failure) :
    low ≤ high ∧ (∀ y ∈ (Stmt.select e arms fallback).binds, low ≤ y ∧ y < high) ∧
      ∀ y ∈ (Stmt.select e arms fallback).sets, low ≤ y ∧ y < high ∨ y = result.id := by
  induction made with
  | nil index n =>
    refine ⟨Nat.le_refl n, fun y member => ?_, fun y member => ?_⟩
    · simp [Stmt.binds, Stmt.binders, Stmt.blocks] at member
    · simp [Stmt.sets, Stmt.target?, Stmt.blocks] at member
  | @cons index low mid high key payload pattern block rest arms plain picks decodes others ih =>
    obtain ⟨le, binds, sets⟩ := ih
    have le' := decodes.closed.le
    refine ⟨Nat.le_trans le' le, fun y member => ?_, fun y member => ?_⟩
    · have either : y ∈ Stmt.bound block.stmts ∨ y ∈ (Stmt.select e arms fallback).binds := by
        simp only [Stmt.binds, Stmt.binders, Stmt.blocks, List.flatMap_cons, plain, List.map_cons,
          Stmt.bound_append, List.mem_append] at member ⊢
        simpa [Stmt.bound_cons, Stmt.binds, Stmt.binders, Stmt.blocks, or_comm, or_left_comm]
          using member
      rcases either with inner | later
      · have := decodes.closed.bound y inner
        omega
      · have := binds y later
        omega
    · have either : y ∈ Stmt.assigned block.stmts ∨ y = result.id ∨
          y ∈ (Stmt.select e arms fallback).sets := by
        simpa [Stmt.sets_select, Stmt.assigned_cons, Stmt.sets, Stmt.target?, Stmt.blocks,
          or_assoc] using member
      rcases either with inner | rfl | later
      · have := decodes.closed.assigned y inner
        omega
      · exact .inr rfl
      · have := sets y later
        omega

/-- The tag is read, then the variant that it selects. -/
theorem Arms.decodes (made : Arms C order target tags result known 0 (mid + 1) high variants arms)
    (tag : Binds C read low mid front value) (own : result.id = mid)
    (yields : Yields read known) (covers : Covers known type value arms fallback) :
    Decodes C (do
      let found ← read
      Layout.variantsWith order target found tags 0 variants) low high
      ⟨front ++ [.bind result false none, .select (.var value) arms fallback], .var result⟩ := by
  obtain ⟨le, binds, sets⟩ := made.range (.var value) fallback
  have second : Closed mid high [.bind result false none, .select (.var value) arms fallback] := by
    refine closed_open (by omega) rfl rfl (fun y member => ?_) fun y member => ?_
    · have := binds y member
      omega
    · have := sets y member
      omega
  refine Binds.value ⟨tag.closed.append second, ⟨false, none, by simp⟩, ?_⟩
  intro p holds m reader stream
  rw [Probe.execBlock_append]
  refine (tag.run p holds m reader stream).bind fun _ found m₁ reader₁ _ ran stream₁ held => ?_
  have isKnown := yields _ _ _ ran
  have start : Probe.exec p (.bind result false none) m₁ =
      .ok ((), Probe.setting m₁ result .null) := rfl
  rw [Probe.execBlock]
  refine Probe.Mirrors.step start ?_
  have below := (tag.closed.bound _ tag.mem_bound).2
  have still : (Probe.setting m₁ result .null).env.get? value.id = some found := by
    rw [Env.get?_set, if_neg (by omega), held]
  rw [execBlock_single, Probe.exec]
  refine Probe.Mirrors.step (Probe.eval_var still) ?_
  exact made.mirrors holds isKnown stream₁ still (covers.imp_right fun ⟨bare, all⟩ =>
    ⟨bare, all found isKnown⟩)

end Decoding

end WireSchema
