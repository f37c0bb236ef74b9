import WireSchema.Schema

/-!
# Shapes without references

A reference stands for the shape behind its label, and the number of a bit group only says which
slots belong together. Unfolding a shape puts the targets in the place of the references and forgets
the numbers. Where the labels are ranked, unfolding comes to an end: no more references are followed
than there are labels.
-/

namespace WireSchema

namespace Shape

mutual

/-- The shape with the given shapes in place of its references, and without the numbers of its bit
groups. -/
def unfoldWith (target : String → Shape) : Shape → Shape
  | .prim p => .prim p
  | .optional value presence => .optional (unfoldWith target value) (unfoldWith target presence)
  | .list item length => .list (unfoldWith target item) length
  | .map key value length => .map (unfoldWith target key) (unfoldWith target value) length
  | .struct fields => .struct (unfoldFields target fields)
  | .merged parts => .merged (unfoldParts target parts)
  | .enum backing entries => .enum backing entries
  | .union tagField tag variants tags =>
    .union tagField (unfoldWith target tag) (unfoldVariants target variants) tags
  | .packed backing widths fields _ => .packed backing widths (unfoldFields target fields) 0
  | .flags backing masks fields _ => .flags backing masks (unfoldFields target fields) 0
  | .slot _ index kind => .slot 0 index kind
  | .alias name inner => .alias name (unfoldWith target inner)
  | .exported name inner => .exported name (unfoldWith target inner)
  | .custom signature definition hook => .custom signature definition hook
  | .ref label => target label
  | .transformed name backing hostType fromWire toWire transform =>
    .transformed name (unfoldWith target backing) hostType fromWire toWire transform
  | .literal value backing => .literal value backing

def unfoldFields (target : String → Shape) : List (Member Shape) → List (Member Shape)
  | [] => []
  | ⟨name, shape, doc⟩ :: rest => ⟨name, unfoldWith target shape, doc⟩ :: unfoldFields target rest

def unfoldParts (target : String → Shape) : List Shape → List Shape
  | [] => []
  | s :: rest => unfoldWith target s :: unfoldParts target rest

def unfoldVariants (target : String → Shape) : List (String × Shape) → List (String × Shape)
  | [] => []
  | (key, s) :: rest => (key, unfoldWith target s) :: unfoldVariants target rest

end

mutual

/-- The labels of the references in a shape. -/
def labels : Shape → List String
  | .ref label => [label]
  | .optional value presence => labels value ++ labels presence
  | .list item _ => labels item
  | .map key value _ => labels key ++ labels value
  | .struct fields | .packed _ _ fields _ | .flags _ _ fields _ => labelsOfFields fields
  | .merged parts => labelsOfParts parts
  | .union _ tag variants _ => labels tag ++ labelsOfVariants variants
  | .alias _ inner | .exported _ inner => labels inner
  | .transformed _ backing _ _ _ _ => labels backing
  | .prim _ | .enum _ _ | .slot _ _ _ | .custom _ _ _ | .literal _ _ => []

def labelsOfFields : List (Member Shape) → List String
  | [] => []
  | ⟨_, shape, _⟩ :: rest => labels shape ++ labelsOfFields rest

def labelsOfParts : List Shape → List String
  | [] => []
  | s :: rest => labels s ++ labelsOfParts rest

def labelsOfVariants : List (String × Shape) → List String
  | [] => []
  | (_, s) :: rest => labels s ++ labelsOfVariants rest

end

section Congruence

variable {target target' : String → Shape}

mutual

/-- An unfolded shape depends on the targets of its own labels only. -/
theorem unfoldWith_congr : ∀ s : Shape, (∀ label ∈ s.labels, target label = target' label) →
    s.unfoldWith target = s.unfoldWith target'
  | .ref label, agree => agree label (List.mem_singleton.mpr rfl)
  | .optional value presence, agree => by
    have first := unfoldWith_congr value fun l member => agree l (List.mem_append_left _ member)
    have second := unfoldWith_congr presence fun l member => agree l (List.mem_append_right _ member)
    rw [unfoldWith, unfoldWith, first, second]
  | .list item _, agree => by rw [unfoldWith, unfoldWith, unfoldWith_congr item agree]
  | .map key value _, agree => by
    have first := unfoldWith_congr key fun l member => agree l (List.mem_append_left _ member)
    have second := unfoldWith_congr value fun l member => agree l (List.mem_append_right _ member)
    rw [unfoldWith, unfoldWith, first, second]
  | .struct fields, agree => by rw [unfoldWith, unfoldWith, unfoldFields_congr fields agree]
  | .packed _ _ fields _, agree => by rw [unfoldWith, unfoldWith, unfoldFields_congr fields agree]
  | .flags _ _ fields _, agree => by rw [unfoldWith, unfoldWith, unfoldFields_congr fields agree]
  | .merged parts, agree => by rw [unfoldWith, unfoldWith, unfoldParts_congr parts agree]
  | .union _ tag variants _, agree => by
    have first := unfoldWith_congr tag fun l member => agree l (List.mem_append_left _ member)
    have second := unfoldVariants_congr variants fun l member =>
      agree l (List.mem_append_right _ member)
    rw [unfoldWith, unfoldWith, first, second]
  | .alias _ inner, agree => by rw [unfoldWith, unfoldWith, unfoldWith_congr inner agree]
  | .exported _ inner, agree => by rw [unfoldWith, unfoldWith, unfoldWith_congr inner agree]
  | .transformed _ backing _ _ _ _, agree => by
    rw [unfoldWith, unfoldWith, unfoldWith_congr backing agree]
  | .prim _, _ | .enum _ _, _ | .slot _ _ _, _ | .custom _ _ _, _ | .literal _ _, _ => rfl

theorem unfoldFields_congr : ∀ fields : List (Member Shape),
    (∀ label ∈ labelsOfFields fields, target label = target' label) →
    unfoldFields target fields = unfoldFields target' fields
  | [], _ => rfl
  | ⟨_, shape, _⟩ :: rest, agree => by
    have first := unfoldWith_congr shape fun l member => agree l (List.mem_append_left _ member)
    have others := unfoldFields_congr rest fun l member => agree l (List.mem_append_right _ member)
    rw [unfoldFields, unfoldFields, first, others]

theorem unfoldParts_congr : ∀ parts : List Shape,
    (∀ label ∈ labelsOfParts parts, target label = target' label) →
    unfoldParts target parts = unfoldParts target' parts
  | [], _ => rfl
  | s :: rest, agree => by
    have first := unfoldWith_congr s fun l member => agree l (List.mem_append_left _ member)
    have others := unfoldParts_congr rest fun l member => agree l (List.mem_append_right _ member)
    rw [unfoldParts, unfoldParts, first, others]

theorem unfoldVariants_congr : ∀ variants : List (String × Shape),
    (∀ label ∈ labelsOfVariants variants, target label = target' label) →
    unfoldVariants target variants = unfoldVariants target' variants
  | [], _ => rfl
  | (_, s) :: rest, agree => by
    have first := unfoldWith_congr s fun l member => agree l (List.mem_append_left _ member)
    have others := unfoldVariants_congr rest fun l member => agree l (List.mem_append_right _ member)
    rw [unfoldVariants, unfoldVariants, first, others]

end

end Congruence

/-- The shape with all references followed. -/
def unfolded (refs : Refs) : Shape → Shape := following refs unfoldWith .ref refs.length

end Shape

/-- The labels behind a label have ranks below its own, and the ranks are below the number of labels.
-/
structure Refs.Ranked (refs : Refs) (rank : String → Nat) : Prop where
  lower : ∀ label target, refs.lookup label = some target →
    ∀ other ∈ target.labels, rank other < rank label
  bounded : ∀ label target, refs.lookup label = some target → rank label < refs.length

namespace Shape

variable {refs : Refs} {rank : String → Nat}

/-- The unfolded target of a label, or the label itself where it has none. -/
def targetIn (refs : Refs) (label : String) : Shape :=
  match refs.lookup label with
  | some s => s.unfolded refs
  | none => .ref label

/-- What `ask` answers at a shape depends on the answers for the labels in the shape only. -/
def LooksAtLabels {α : Type} (ask : (String → α) → Shape → α) : Prop :=
  ∀ {answer answer' : String → α} (s : Shape), (∀ label ∈ s.labels, answer label = answer' label) →
    ask answer s = ask answer' s

/-- Following more references than the ranks allow changes nothing. Whatever is said of the labels
that are not in the table, it counts only if one of them is met. -/
theorem following_stable {α : Type} {ask : (String → α) → Shape → α} (looks : LooksAtLabels ask)
    (ranked : refs.Ranked rank) {lost lost' : String → α} {Met : String → Prop}
    (same : ∀ label, Met label → refs.lookup label = none → lost label = lost' label)
    (behind : ∀ label target, Met label → refs.lookup label = some target →
      ∀ other ∈ target.labels, Met other) (bound : Nat) :
    ∀ (fuel fuel' : Nat) (s : Shape), (∀ label ∈ s.labels, rank label < bound ∧ Met label) →
      bound ≤ fuel → bound ≤ fuel' →
      following refs ask lost fuel s = following refs ask lost' fuel' s := by
  induction bound using Nat.strongRecOn with
  | ind bound ih =>
    intro fuel fuel' s below le le'
    cases fuel with
    | zero =>
      -- There are no labels with a rank below zero.
      cases fuel' with
      | zero | succ =>
        refine looks s fun label member => ?_
        have := below label member
        omega
    | succ fuel =>
      cases fuel' with
      | zero =>
        refine looks s fun label member => ?_
        have := below label member
        omega
      | succ fuel' =>
        refine looks s fun label member => ?_
        obtain ⟨less, met⟩ := below label member
        cases found : refs.lookup label with
        | none => exact same label met found
        | some target =>
          have lower := ranked.lower label target found
          have inside := behind label target met found
          exact ih (rank label) less fuel fuel' target
            (fun other member => ⟨lower other member, inside other member⟩) (by omega) (by omega)

/-- The answer at a shape is made of the answers at the targets of its labels. -/
theorem following_eq {α : Type} {ask : (String → α) → Shape → α} (looks : LooksAtLabels ask)
    (ranked : refs.Ranked rank) (lost : String → α) (s : Shape) :
    following refs ask lost refs.length s = ask (fun label =>
      match refs.lookup label with
      | some target => following refs ask lost refs.length target
      | none => lost label) s := by
  cases size : refs.length with
  | zero =>
    refine looks s fun label _ => ?_
    rw [List.length_eq_zero_iff.mp size]
    rfl
  | succ fuel =>
    refine looks s fun label _ => ?_
    cases found : refs.lookup label with
    | none => rfl
    | some target =>
      have less := ranked.bounded label target found
      exact following_stable looks ranked (fun _ (_ : True) _ => rfl) (fun _ _ _ _ _ _ => trivial)
        (rank label) fuel (fuel + 1) target
        (fun other member => ⟨ranked.lower label target found other member, trivial⟩) (by omega)
        (by omega)

/-- Unfolding puts unfolded targets in the place of references. -/
theorem unfolded_eq (ranked : refs.Ranked rank) (s : Shape) :
    s.unfolded refs = s.unfoldWith (targetIn refs) := by
  rw [unfolded, following_eq unfoldWith_congr ranked]
  refine unfoldWith_congr s fun label _ => ?_
  rw [targetIn]
  split <;> rfl

/-- The targets of labels solve the equations that the table gives. -/
theorem targetIn_eq (ranked : refs.Ranked rank) {label : String} {s : Shape}
    (found : refs.lookup label = some s) : targetIn refs label = s.unfoldWith (targetIn refs) := by
  simp only [targetIn, found]
  exact unfolded_eq ranked s

/-- Nothing else solves them. -/
theorem targetIn_unique (ranked : refs.Ranked rank) {target : String → Shape}
    (solves : ∀ label s, refs.lookup label = some s → s.unfoldWith target = target label)
    (outside : ∀ label, refs.lookup label = none → target label = .ref label) :
    targetIn refs = target := by
  funext label
  induction size : rank label using Nat.strongRecOn generalizing label with
  | ind bound ih =>
    subst size
    cases found : refs.lookup label with
    | none => rw [outside label found, targetIn, found]
    | some s =>
      have inner : s.unfoldWith (targetIn refs) = s.unfoldWith target :=
        unfoldWith_congr s fun other member =>
          ih (rank other) (ranked.lower label s found other member) other rfl
      rw [targetIn_eq ranked found, inner, solves label s found]

end Shape

/-! ### Packets, protocols and schemas -/

section Target

variable (target : String → Shape)

/-- The packet with shapes in place of its references. -/
def Packet.unfoldWith (p : Packet) : Packet :=
  { p with fields := Shape.unfoldFields target p.fields }

def Protocol.unfoldWith (p : Protocol) : Protocol where
  name := p.name
  serverbound := p.serverbound.map (·.unfoldWith target)
  clientbound := p.clientbound.map (·.unfoldWith target)

/-- The types and protocols of the schema, which then need no references. -/
def Schema.unfoldWith (s : Schema) : Schema where
  types := s.types.map fun (name, shape) => (name, shape.unfoldWith target)
  protocols := s.protocols.map (·.unfoldWith target)
  refs := []
  nextGroup := 0

end Target

/-- The schema with all references followed, and without the numbers of bit groups. -/
def Schema.unfolded (s : Schema) : Schema := s.unfoldWith (Shape.targetIn s.refs)

section Adding

variable {target : String → Shape}

theorem Protocol.packets_unfoldWith (p : Protocol) (flow : Flow) :
    (p.unfoldWith target).packets flow = (p.packets flow).map (·.unfoldWith target) := by
  cases flow <;> rfl

theorem Protocol.append_unfoldWith (p : Protocol) (flow : Flow) (packet : Packet) :
    (p.append flow packet).unfoldWith target =
      (p.unfoldWith target).append flow (packet.unfoldWith target) := by
  cases flow <;> simp [append, unfoldWith]

/-- Whether a packet can be added depends on names only. -/
theorem Protocol.addPacket_unfoldWith {p p' q : Protocol} {flow : Flow} {packet packet' : Packet}
    {id : Nat} (same : p.unfoldWith target = p'.unfoldWith target)
    (samePacket : packet.unfoldWith target = packet'.unfoldWith target)
    (added : p.addPacket flow packet = .ok (id, q)) : ∃ q', p'.addPacket flow packet' = .ok (id, q') ∧
      q.unfoldWith target = q'.unfoldWith target := by
  have packets : (p.packets flow).map (·.unfoldWith target) =
      (p'.packets flow).map (·.unfoldWith target) := by
    rw [← packets_unfoldWith, same, packets_unfoldWith]
  have names : ∀ p : Protocol, (p.packets flow).map (·.name) =
      ((p.packets flow).map (·.unfoldWith target)).map (·.name) := by
    intro p
    rw [List.map_map]
    rfl
  have sameName : (packet.unfoldWith target).name = (packet'.unfoldWith target).name :=
    congrArg Packet.name samePacket
  change packet.name = packet'.name at sameName
  have sameAny : (p.packets flow).any (·.name == packet.name) =
      (p'.packets flow).any (·.name == packet'.name) := by
    have first := List.any_map (f := (·.name)) (l := p.packets flow) (p := (· == packet.name))
    have second := List.any_map (f := (·.name)) (l := p'.packets flow) (p := (· == packet'.name))
    rw [names p, packets, ← names p', sameName] at first
    rw [sameName]
    exact first.symm.trans second
  have sameLength : (p.packets flow).length = (p'.packets flow).length := by
    rw [← List.length_map (·.unfoldWith target), packets, List.length_map]
  rw [addPacket, sameAny] at added
  rw [addPacket]
  split at added
  · cases added
  · next free =>
    cases added
    rw [if_neg free, sameLength]
    refine ⟨_, rfl, ?_⟩
    rw [append_unfoldWith, append_unfoldWith, same, samePacket]

/-- The schemas have the same protocols once references are followed. -/
def Schema.SameProtocols (target : String → Shape) (s s' : Schema) : Prop :=
  s.protocols.map (·.unfoldWith target) = s'.protocols.map (·.unfoldWith target)

theorem Schema.SameProtocols.find {s s' : Schema} (same : s.SameProtocols target s')
    (name : String) : (s.protocols.find? (·.name == name)).map (·.unfoldWith target) =
      (s'.protocols.find? (·.name == name)).map (·.unfoldWith target) := by
  have commutes (ps : List Protocol) : (ps.map (·.unfoldWith target)).find? (·.name == name) =
      (ps.find? (·.name == name)).map (·.unfoldWith target) := by
    rw [List.find?_map]
    rfl
  rw [← commutes, same, commutes]

theorem Schema.SameProtocols.addPacket {s s' t : Schema} {name : String} {flow : Flow}
    {packet packet' : Packet} {id : Nat} (same : s.SameProtocols target s')
    (samePacket : packet.unfoldWith target = packet'.unfoldWith target)
    (added : s.addPacket name flow packet = .ok (id, t)) :
    ∃ t', s'.addPacket name flow packet' = .ok (id, t') ∧ t.SameProtocols target t' := by
  have found := same.find name
  rw [Schema.addPacket] at added ⊢
  cases search : s.protocols.find? (·.name == name) with
  | none =>
    rw [search] at found added
    rw [Option.map_eq_none_iff.mp found.symm]
    cases added
    exact ⟨s', rfl, same⟩
  | some p =>
    rw [search] at found added
    obtain ⟨p', search', sameProtocol⟩ := Option.map_eq_some_iff.mp found.symm
    rw [search']
    cases first : p.addPacket flow packet with
    | error e =>
      simp only [first] at added
      cases added
    | ok result =>
      obtain ⟨id', q⟩ := result
      simp only [first] at added
      cases added
      obtain ⟨q', second, sameResult⟩ :=
        Protocol.addPacket_unfoldWith sameProtocol.symm samePacket first
      simp only [second]
      refine ⟨_, rfl, ?_⟩
      -- Both replace the protocol of that name, and leave the others alone.
      have replaced (ps : List Protocol) (q : Protocol) :
          (ps.map fun r => if r.name == name then q else r).map (·.unfoldWith target) =
            (ps.map (·.unfoldWith target)).map fun r =>
              if r.name == name then q.unfoldWith target else r := by
        rw [List.map_map, List.map_map]
        refine List.map_congr_left fun r _ => ?_
        simp only [Function.comp_apply, apply_ite (Protocol.unfoldWith target)]
        rfl
      rw [SameProtocols, replaced, replaced, same, sameResult]

theorem Schema.SameProtocols.addProtocol {s s' t : Schema} {name : String}
    (same : s.SameProtocols target s') (added : s.addProtocol name = .ok t) :
    ∃ t', s'.addProtocol name = .ok t' ∧ t.SameProtocols target t' := by
  have commutes (ps : List Protocol) : (ps.map (·.unfoldWith target)).any (·.name == name) =
      ps.any (·.name == name) := by
    rw [List.any_map]
    rfl
  have sameAny : s.protocols.any (·.name == name) = s'.protocols.any (·.name == name) := by
    rw [← commutes, same, commutes]
  rw [Schema.addProtocol, sameAny] at added
  rw [Schema.addProtocol]
  split at added
  · cases added
  · next free =>
    cases added
    rw [if_neg free]
    refine ⟨_, rfl, ?_⟩
    rw [SameProtocols, List.map_append, List.map_append, same]

theorem Schema.addPacket_kept {s t : Schema} {name : String} {flow : Flow} {packet : Packet}
    {id : Nat} (added : s.addPacket name flow packet = .ok (id, t)) :
    t.types = s.types ∧ t.refs = s.refs := by
  rw [Schema.addPacket] at added
  split at added
  · cases added
    exact ⟨rfl, rfl⟩
  · next p _ =>
    cases ran : p.addPacket flow packet with
    | error e =>
      rw [ran] at added
      cases added
    | ok result =>
      rw [ran] at added
      cases added
      exact ⟨rfl, rfl⟩

theorem Schema.addProtocol_kept {s t : Schema} {name : String} (added : s.addProtocol name = .ok t) :
    t.types = s.types ∧ t.refs = s.refs := by
  rw [Schema.addProtocol] at added
  split at added
  · cases added
  · cases added
    exact ⟨rfl, rfl⟩

end Adding

end WireSchema
