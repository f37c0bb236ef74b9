import WireSchema.Proofs.Generation.Completeness
import WireSchema.Proofs.Lowering.Ends
import WireSchema.Proofs.Source.Recursion
import WireSchema.Proofs.Source.Reordering

/-!
# Schemas come to an end

The search for recursive types is exact, and what it lets through has an end: in the schema of a text
that is accepted every reference is resolved, and going down from any shape ends. Generating code goes
no deeper than the weight of the schema allows.

## Main results

* `Schema.Founded.generates`: generation comes to an end for schemas whose references are ranked.
* `Schema.recursive_types_are_found_exactly`: a text is refused as recursive if and only if a
  declaration is reached from itself, and schemas that are accepted come to an end.
-/

namespace WireSchema

open Ir Lowering

/-! ### Weights -/

theorem le_total {ns : List Nat} {n : Nat} (member : n ∈ ns) : n ≤ total ns := by
  induction ns with
  | nil => cases member
  | cons first rest ih =>
    change n ≤ first + total rest
    rcases List.mem_cons.mp member with rfl | later
    · omega
    · have := ih later
      omega

theorem length_le_total {ns : List Nat} (positive : ∀ n ∈ ns, 0 < n) : ns.length ≤ total ns := by
  induction ns with
  | nil => exact Nat.le_refl 0
  | cons first rest ih =>
    obtain ⟨here, later⟩ := List.forall_mem_cons.mp positive
    have := ih later
    change rest.length + 1 ≤ first + total rest
    omega

/-- The shape is that of a type or of a field of a packet, or met on the way down from one. -/
def Schema.Meets (s : Schema) (t : Shape) : Prop :=
  ∃ root : Shape, Shape.Reaches s.refs root t ∧ ((∃ entry ∈ s.types, entry.2 = root) ∨
    ∃ p ∈ s.protocols, ∃ flow, ∃ packet ∈ p.packets flow, ∃ f ∈ packet.fields, f.shape = root)

/-- The references of the schema are ranked, whatever is met is known, and its packets have no hooks.
-/
structure Schema.Founded (rank : String → Nat) (s : Schema) : Prop where
  ranked : s.refs.Ranked rank
  known : ∀ t, s.Meets t → t.IsKnown s.refs
  plain : ∀ p ∈ s.protocols, ∀ flow, ∀ packet ∈ p.packets flow,
    packet.decodeHook = none ∧ packet.encodeHook = none

namespace Schema

variable {s : Schema} {rank : String → Nat} {t : Shape}

theorem Meets.further {u : Shape} (meets : s.Meets t) (reaches : Shape.Reaches s.refs t u) :
    s.Meets u := by
  obtain ⟨root, before, own⟩ := meets
  exact ⟨root, before.trans reaches, own⟩

theorem meets_type {entry : String × Shape} (member : entry ∈ s.types) : s.Meets entry.2 :=
  ⟨entry.2, .refl, .inl ⟨entry, member, rfl⟩⟩

theorem meets_field {p : Protocol} (inSchema : p ∈ s.protocols) {flow : Flow} {packet : Packet}
    (inFlow : packet ∈ p.packets flow) {f : Field} (member : f ∈ packet.fields) :
    s.Meets f.shape :=
  ⟨f.shape, .refl, .inr ⟨p, inSchema, flow, packet, inFlow, f, member, rfl⟩⟩

theorem weight_type {entry : String × Shape} (member : entry ∈ s.types) :
    entry.2.weight ≤ s.weight := by
  have inTypes : entry.2.weight ≤ total (s.types.map (·.2.weight)) :=
    le_total (List.mem_map_of_mem (f := (·.2.weight)) member)
  rw [weight]
  omega

theorem weight_target {label : String} {target : Shape}
    (found : s.refs.lookup label = some target) : target.weight ≤ s.weight := by
  have inRefs : target.weight ≤ s.refs.weight :=
    le_total (List.mem_map_of_mem (f := (·.2.weight)) (mem_of_lookup found))
  rw [weight]
  omega

theorem length_refs_le : s.refs.length ≤ s.weight := by
  have few : (s.refs.map (·.2.weight)).length ≤ s.refs.weight := by
    refine length_le_total fun n member => ?_
    obtain ⟨entry, _, rfl⟩ := List.mem_map.mp member
    exact entry.2.weight_pos
  rw [List.length_map] at few
  rw [weight]
  omega

theorem weight_packet {p : Protocol} (inSchema : p ∈ s.protocols) {flow : Flow} {packet : Packet}
    (inFlow : packet ∈ p.packets flow) : (Shape.struct packet.fields).weight ≤ s.weight + 1 := by
  have inEither : packet ∈ p.serverbound ++ p.clientbound := by
    cases flow with
    | serverbound => exact List.mem_append_left _ inFlow
    | clientbound => exact List.mem_append_right _ inFlow
  have inProtocol : packet.weight ≤ total ((p.serverbound ++ p.clientbound).map Packet.weight) :=
    le_total (List.mem_map_of_mem inEither)
  have inProtocols := le_total (List.mem_map_of_mem
    (f := fun p : Protocol => total ((p.serverbound ++ p.clientbound).map Packet.weight)) inSchema)
  have fields : Shape.weightFields packet.fields ≤ packet.weight := Nat.le_add_right _ _
  rw [weight, Shape.weight]
  omega

namespace Founded

/-- What the schema is made of is grounded, at a height that the depth of generation allows. -/
theorem grounded (founded : s.Founded rank) (light : t.weight ≤ s.weight + 1)
    (known : ∀ u, Shape.Reaches s.refs t u → u.IsKnown s.refs) :
    t.Grounded s.refs ((s.weight + 1) * (s.weight + 1)) := by
  have below (label : String) (member : label ∈ t.labels) : rank label < s.refs.length := by
    obtain ⟨target, found⟩ := known _ (Shape.reaches_label member)
    exact founded.ranked.bounded label target found
  have height := Shape.grounded_of_ranked founded.ranked (fun _ _ => weight_target) s.refs.length t
    below known
  -- There are no more labels than the schema is heavy.
  have less : s.refs.length * (s.weight + 1) ≤ s.weight * (s.weight + 1) :=
    Nat.mul_le_mul_right _ length_refs_le
  refine height.mono ?_
  rw [Nat.succ_mul]
  omega

theorem grounded_type (founded : s.Founded rank) {entry : String × Shape} (member : entry ∈ s.types) :
    entry.2.Grounded s.refs ((s.weight + 1) * (s.weight + 1)) :=
  founded.grounded ((weight_type member).trans (Nat.le_succ _)) fun u reaches =>
    founded.known u ((meets_type member).further reaches)

theorem grounded_packet (founded : s.Founded rank) {p : Protocol} (inSchema : p ∈ s.protocols)
    {flow : Flow} {packet : Packet} (inFlow : packet ∈ p.packets flow) :
    (Shape.struct packet.fields).Grounded s.refs ((s.weight + 1) * (s.weight + 1)) := by
  refine founded.grounded (weight_packet inSchema inFlow) fun u reaches => ?_
  rcases reaches.cases_head with rfl | ⟨part, member, further⟩
  · trivial
  · obtain ⟨f, among, rfl⟩ := List.mem_map.mp member
    exact founded.known u ((meets_field inSchema inFlow among).further further)

/-- Whatever is met is grounded. -/
theorem grounded_met (founded : s.Founded rank) (meets : s.Meets t) :
    t.Grounded s.refs ((s.weight + 1) * (s.weight + 1)) := by
  obtain ⟨root, reaches, ⟨entry, member, rfl⟩ | ⟨p, inSchema, flow, packet, inFlow, f, among, rfl⟩⟩ :=
    meets
  · exact (founded.grounded_type member).reached reaches
  · have whole := founded.grounded_packet inSchema inFlow
    exact whole.reached (.head (List.mem_map_of_mem among) reaches)

/-! ### Generation -/

theorem ends_packet {hooks : Hooks} {types : Refs} {em : Emitter} {n : Nat} (ends : em.Ends types n)
    {p : Packet} (grounded : (Shape.struct p.fields).Grounded types n) (plain : p.decodeHook = none)
    (plain' : p.encodeHook = none) (id : Nat) :
    Gen.Ends types (Generate.packet hooks em id p) fun _ => True := by
  have field (f : Field) (member : f ∈ p.fields) : f.shape.Grounded types n :=
    grounded.reached (.single (List.mem_map_of_mem member))
  refine Gen.Ends.withHint (Gen.Ends.bind (Gen.ends_mapM fun f member => ?_) fun _ _ => ?_) _
  · have typed := ends.typeExpr f.shape (field f (List.mem_filter.mp member).1)
    exact (typed.withHint f.name).bind fun _ _ => Gen.ends_pure trivial
  · refine (Gen.ends_updateDraft _).bind fun _ _ => ?_
    refine Gen.Ends.bind (Gen.Ends.captureBlock (Q := fun _ => True) ?_) fun _ _ => ?_
    · rw [Generate.packetDecoder, plain]
      exact (ends.decodeBindings _ grounded).bind fun _ _ => Gen.ends_pure trivial
    refine (Gen.ends_updateDraft _).bind fun _ _ => (Gen.ends_param _).bind fun this _ => ?_
    refine Gen.Ends.bind (Gen.Ends.capture (Q := fun _ => True) ?_) fun _ _ => Gen.ends_pure trivial
    rw [Generate.packetEncoder, plain']
    exact ends.encodeFields _ _ grounded

theorem ends_packetsFrom {hooks : Hooks} {types : Refs} {em : Emitter} {n : Nat}
    (ends : em.Ends types n) {packets : List Packet}
    (each : ∀ p ∈ packets, (Shape.struct p.fields).Grounded types n ∧ p.decodeHook = none ∧
      p.encodeHook = none) (handlers : List String) (id : Nat) :
    Gen.Ends types (Generate.packetsFrom hooks em handlers id packets) fun _ => True := by
  induction packets generalizing handlers id with
  | nil => exact Gen.ends_pure trivial
  | cons p rest ih =>
    obtain ⟨⟨grounded, plain, plain'⟩, later⟩ := List.forall_mem_cons.mp each
    refine (ends_packet ends grounded plain plain' id).bind fun generated _ => ?_
    exact (ih later _ _).bind fun _ _ => Gen.ends_pure trivial

/-- Generation comes to an end. -/
theorem generates (founded : s.Founded rank) (hooks : Hooks) :
    FailsOnly SchemaError.IsFinite (s.generate hooks) := by
  -- The depth that generation starts with is twice the height of whatever is met, and more.
  have enough : 2 * ((s.weight + 1) * (s.weight + 1)) ≤ depthFor s.weight := by
    have le : (s.weight + 1) * (s.weight + 1) ≤ (s.weight + 2) * (s.weight + 2) :=
      Nat.mul_le_mul (by omega) (by omega)
    rw [depthFor, Nat.mul_assoc]
    omega
  have ends := ends_emitter hooks founded.ranked _ _ enough
  have units : Gen.Ends s.refs (s.generateUnits hooks) fun _ => True := by
    refine (Gen.ends_forM fun entry member => ?_).bind fun _ _ => Gen.ends_mapM fun p inSchema => ?_
    · exact ends.prepare entry.2 (founded.grounded_type member)
    · refine (Gen.ends_mapM fun flow _ => ?_).bind fun _ _ => Gen.ends_pure trivial
      refine (Gen.ends_updateDraft _).bind fun _ _ => ?_
      refine (ends_packetsFrom ends (fun packet inFlow => ?_) [] 0).bind fun _ _ => Gen.ends_pure trivial
      exact ⟨founded.grounded_packet inSchema inFlow, founded.plain p inSchema flow packet inFlow⟩
  -- The code that is put together of the units cannot fail any more.
  obtain ⟨_, _, finite⟩ := units s.session rfl
  intro e failed
  unfold generate at failed
  cases started : (s.generateUnits hooks).start s.session with
  | mk result σ =>
    rw [started] at failed finite
    cases result with
    | ok protocols => cases failed
    | error other =>
      cases failed
      exact finite e rfl

end Founded

/-! ### Schemas of texts -/

theorem fieldShape_reached {types : Refs} (ordered : types.Ordered rank) {u : Shape}
    (shape : t.IsFieldShape types rank) (reaches : Shape.Reaches types t u) :
    u.IsFieldShape types rank := by
  induction reaches with
  | refl => exact shape
  | tail _ member ih => exact fieldShape_subshapes ordered ih member

theorem isKnown_of_fieldShape {types : Refs} (ordered : types.Ordered rank)
    (shape : t.IsFieldShape types rank) : t.IsKnown types := by
  rcases shape with ⟨bound, wf⟩ | ⟨group, index, kind, rfl⟩
  · cases t with
    | ref label =>
      obtain ⟨target, _, found, _⟩ := ordered.target wf.1
      exact ⟨target, found⟩
    | custom => exact wf.elim
    | _ => trivial
  · trivial

/-- The schema of a text is founded. -/
theorem WellFormed.founded (wf : s.WellFormed rank) : s.Founded rank where
  ranked := Source.ranked_of_ordered wf.ordered
  known := by
    rintro t ⟨root, reaches, own⟩
    have shape : root.IsFieldShape s.refs rank := by
      rcases own with ⟨entry, member, rfl⟩ | ⟨p, inSchema, flow, packet, inFlow, f, among, rfl⟩
      · rw [wf.types] at member
        exact fieldShape_target wf.ordered (lookup_of_mem wf.ordered.nodup member)
      · exact .inl ⟨_, Shape.mem_wellFormedFields (wf.packets p inSchema flow packet inFlow).1 among⟩
    exact isKnown_of_fieldShape wf.ordered (fieldShape_reached wf.ordered shape reaches)
  plain p inSchema flow packet inFlow := (wf.packets p inSchema flow packet inFlow).2

/-- Nothing in the schema goes on without end: every reference that is met is resolved, going down from
a shape ends, names and the shapes behind aliases are found however many references are followed, and
whatever the hooks, generation never goes too deep and meets no reference that is not resolved. -/
structure ComesToAnEnd (s : Schema) : Prop where
  resolved : ∀ label, s.Meets (.ref label) → ∃ target, s.refs.lookup label = some target
  wellFounded : ∀ t, s.Meets t → Acc (fun part whole => part ∈ whole.subshapes s.refs) t
  named : ∀ t, s.Meets t → t.Settled s.refs Shape.nameWith
  behind : ∀ t, s.Meets t →
    t.Settled s.refs Shape.resolvedWith ∧ ∃ found, t.resolved s.refs = .ok found
  generates : ∀ hooks e, s.generate hooks = .error e →
    e ≠ .tooDeep ∧ ∀ label, e ≠ .unresolvedReference label

theorem Founded.comesToAnEnd (founded : s.Founded rank) : s.ComesToAnEnd where
  resolved _ meets := founded.known _ meets
  wellFounded _ meets := (founded.grounded_met meets).acc
  named _ meets := (founded.grounded_met meets).settled Shape.nameWith_congr founded.ranked
  behind _ meets :=
    have grounded := founded.grounded_met meets
    ⟨grounded.settled Shape.resolvedWith_congr founded.ranked, grounded.resolves founded.ranked⟩
  generates hooks e failed := (founded.generates hooks e failed).apart

open Source in
/-- A text whose types can all be built is refused as recursive if and only if the declaration of a
type is reached from itself along the declared types that declarations refer to, and it is such a
declaration that the refusal names. In the schema of a text that is accepted nothing goes on without
end. -/
theorem recursive_types_are_found_exactly (firstGroup : Nat) (text : String) :
    (∀ items, Item.parseAll? text = some items →
      TypesBuild firstGroup (items.filterMap Item.type?) →
      ((∃ name, parseFrom firstGroup text = .error (.parse ("recursive type " ++ name))) ↔
        ∃ name, Circular (items.filterMap Item.type?) name) ∧
      ∀ name, parseFrom firstGroup text = .error (.parse ("recursive type " ++ name)) →
        Circular (items.filterMap Item.type?) name) ∧
    ∀ s, parseFrom firstGroup text = .ok s → s.ComesToAnEnd := by
  constructor
  · intro items parsed build
    have made : parseFrom firstGroup text = schemaOf firstGroup items := by
      rw [parseFrom, parsed]
    rw [made]
    exact recursive_iff build
  · intro s accepted
    unfold parseFrom at accepted
    split at accepted
    · next items parsed =>
      obtain ⟨rank, wf⟩ := wellFormed_of_schemaOf (idents_of_parseAll parsed) accepted
      exact wf.founded.comesToAnEnd
    · cases accepted

/-! ### Two texts -/

open Source

/-- Two types that refer to each other. -/
def circle : String := "type A=list<B>; type B=optional<A>;"

def isCircle : List Item → Bool
  | [.type ⟨false, "A", .list (.named "B") none⟩, .type ⟨false, "B", .optional (.named "A")⟩] => true
  | _ => false

theorem circular_circle {items : List Item} (is : isCircle items = true) :
    TypesBuild 1 (items.filterMap Item.type?) ∧ Circular (items.filterMap Item.type?) "A" := by
  unfold isCircle at is
  split at is
  · refine ⟨⟨rfl, _, rfl⟩, ?_⟩
    have away : RefersTo [⟨false, "A", .list (.named "B") none⟩, ⟨false, "B", .optional (.named "A")⟩]
        "A" "B" := ⟨_, List.mem_cons_self, rfl, .item .named, rfl, by simp⟩
    have back : RefersTo [⟨false, "A", .list (.named "B") none⟩, ⟨false, "B", .optional (.named "A")⟩]
        "B" "A" := ⟨_, List.mem_cons_of_mem _ List.mem_cons_self, rfl, .optional .named, rfl, by simp⟩
    exact .tail (.single away) back
  · cases is

theorem recursive_types_are_found_circle :
    (∃ items, Item.parseAll? circle = some items ∧ TypesBuild 1 (items.filterMap Item.type?) ∧
      Circular (items.filterMap Item.type?) "A" ∧
      ∃ name, parseFrom 1 circle = .error (.parse ("recursive type " ++ name))) ∧
    ∃ s, parseFrom 1 codecLast = .ok s ∧ s.ComesToAnEnd := by
  constructor
  · have read : (Item.parseAll? circle).any isCircle = true := by decide +kernel
    obtain ⟨items, parsed, is⟩ := exists_of_any read
    obtain ⟨build, circular⟩ := circular_circle is
    have refused := ((recursive_types_are_found_exactly 1 circle).1 items parsed build).1.mpr
    exact ⟨items, parsed, build, circular, refused ⟨"A", circular⟩⟩
  · have read : (parseFrom 1 codecLast).toOption.any (fun _ => true) = true := by decide +kernel
    obtain ⟨s, accepted, _⟩ := exists_ok_of_any read
    exact ⟨s, accepted, (recursive_types_are_found_exactly 1 codecLast).2 s accepted⟩

end Schema

end WireSchema
