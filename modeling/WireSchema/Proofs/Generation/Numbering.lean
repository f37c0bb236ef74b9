import Mathlib.Data.List.Induction
import WireSchema.Machine.Interpreter
import WireSchema.Proofs.Generation.Units

/-!
# Packets are numbered in the order of the calls

A schema is built by calls that add protocols, packets and shared types, in any order; some of them
are refused. The packets of a flow get the ids 0, 1, 2, … in the order in which they were added and
keep them: in the schema, in the generated code, and when a packet is decoded by its id.
-/

namespace WireSchema

namespace Schema

/-- A call that extends a schema. A packet is added to a flow of the protocol that owns it. -/
inductive Call where
  | protocol (name : String)
  | packet (owner : String) (flow : Flow) (new : Packet)
  | declareType (name : String) (shape : Shape)
  | exportType (name : String) (shape : Shape)

/-- What a call makes of the schema, with the id of the packet if it adds one. There is nothing to
call on a protocol that the schema does not have. -/
def Call.apply : Call → Schema → Except SchemaError (Option Nat × Schema)
  | .protocol name, s => return (none, ← s.addProtocol name)
  | .packet owner flow new, s =>
    if s.protocols.any (·.name == owner) then do
      let (id, s) ← s.addPacket owner flow new
      return (some id, s)
    else return (none, s)
  | .declareType name shape, s => return (none, (← s.declareType name shape).2)
  | .exportType name shape, s => return (none, (← s.exportType name shape).2)

/-- The schema after some calls, and the calls with their answers, earliest first. -/
structure History where
  schema : Schema := {}
  log : List (Call × Except SchemaError (Option Nat)) := []

namespace History

/-- Makes another call. -/
def step (h : History) (call : Call) : History :=
  match call.apply h.schema with
  | .ok (id, s) => ⟨s, h.log ++ [(call, .ok id)]⟩
  | .error e => ⟨h.schema, h.log ++ [(call, .error e)]⟩

/-- What the calls lead to, from the empty schema on. -/
def of (calls : List Call) : History := calls.foldl step {}

/-- The packet and the id that an answered call added to a flow. -/
def addedBy (owner : String) (flow : Flow) :
    Call × Except SchemaError (Option Nat) → Option (Packet × Nat)
  | (.packet owner' flow' new, .ok (some id)) =>
    if owner' = owner ∧ flow' = flow then some (new, id) else none
  | _ => none

/-- The packets that were added to a flow, with the ids they got, in the order of the calls. -/
def added (h : History) (owner : String) (flow : Flow) : List (Packet × Nat) :=
  h.log.filterMap (addedBy owner flow)

end History

/-! ### What a call does -/

/-- The error with which the schema refuses a call: the name is in use. -/
inductive Refuses (s : Schema) : Call → SchemaError → Prop where
  | protocol {p : Protocol} (member : p ∈ s.protocols) :
    Refuses s (.protocol p.name) (.duplicateProtocol p.name)
  | packet {p : Protocol} {flow : Flow} {old new : Packet} (member : p ∈ s.protocols)
      (present : old ∈ p.packets flow) (same : old.name = new.name) :
    Refuses s (.packet p.name flow new) (.duplicatePacket p.name flow.name new.name)
  | declareType {name : String} {old new : Shape} (member : (name, old) ∈ s.types) :
    Refuses s (.declareType name new) (.duplicateType name)
  | exportType {name : String} {old new : Shape} (member : (name, old) ∈ s.types) :
    Refuses s (.exportType name new) (.duplicateType name)

/-- The protocols when a packet is added to a flow of one of them. -/
def withPacket (protocols : List Protocol) (owner : String) (flow : Flow) (new : Packet) :
    List Protocol :=
  protocols.map fun p => if p.name = owner then p.append flow new else p

variable {s s' : Schema}

/-- A packet is appended to the flow unless its name is in use there. -/
theorem addPacket_eq (distinct : (s.protocols.map (·.name)).Nodup) {p : Protocol}
    (member : p ∈ s.protocols) (flow : Flow) (new : Packet) :
    s.addPacket p.name flow new =
      if (p.packets flow).any (·.name == new.name) then
        .error (.duplicatePacket p.name flow.name new.name)
      else .ok ((p.packets flow).length,
        { s with protocols := withPacket s.protocols p.name flow new }) := by
  have found : s.protocols.find? (·.name == p.name) = some p := find?_of_distinct distinct member
  have replaced : (s.protocols.map fun q => if q.name == p.name then p.append flow new else q) =
      withPacket s.protocols p.name flow new := by
    refine List.map_congr_left fun q present => ?_
    by_cases same : q.name = p.name
    · rw [List.inj_on_of_nodup_map distinct present member same]
      simp
    · simp [same]
  simp only [addPacket, found, Protocol.addPacket, bind, Except.bind]
  by_cases taken : ((p.packets flow).any (·.name == new.name)) = true
  · rw [if_pos taken, if_pos taken]
  · rw [if_neg taken, if_neg taken, ← replaced]
    rfl

/-- Whatever a call adds, it adds at the end: a protocol without packets, a packet with the number
of those before it as its id, or something that is neither. -/
theorem Call.apply_ok (distinct : (s.protocols.map (·.name)).Nodup) {call : Call} {id : Option Nat}
    (ran : call.apply s = .ok (id, s')) :
    (∃ name, name ∉ s.protocols.map (·.name) ∧ id = none ∧
      s'.protocols = s.protocols ++ [({ name } : Protocol)]) ∨
    (∃ p ∈ s.protocols, ∃ flow new, call = .packet p.name flow new ∧
      new.name ∉ (p.packets flow).map (·.name) ∧ id = some (p.packets flow).length ∧
      s'.protocols = withPacket s.protocols p.name flow new) ∨
    (id = none ∧ s'.protocols = s.protocols) := by
  cases call with
  | protocol name =>
    simp only [apply, addProtocol] at ran
    split at ran
    case isTrue => cases ran
    case isFalse fresh =>
      cases ran
      exact .inl ⟨name, by simpa using fresh, rfl, rfl⟩
  | packet owner flow new =>
    simp only [apply] at ran
    split at ran
    case isFalse =>
      cases ran
      exact .inr (.inr ⟨rfl, rfl⟩)
    case isTrue known =>
      obtain ⟨p, member, same⟩ := List.any_eq_true.mp known
      obtain rfl := eq_of_beq same
      rw [addPacket_eq distinct member] at ran
      split at ran
      case isTrue => cases ran
      case isFalse fresh =>
        cases ran
        exact .inr (.inl ⟨p, member, flow, new, rfl, by simpa using fresh, rfl, rfl⟩)
  | declareType name shape =>
    simp only [apply, Schema.declareType, addType] at ran
    split at ran
    · cases ran
    · cases ran
      exact .inr (.inr ⟨rfl, rfl⟩)
  | exportType name shape =>
    simp only [apply, Schema.exportType, addType] at ran
    split at ran
    · cases ran
    · cases ran
      exact .inr (.inr ⟨rfl, rfl⟩)

theorem mem_withPacket {protocols : List Protocol} {owner : String} {flow : Flow} {new : Packet}
    {q : Protocol} : q ∈ withPacket protocols owner flow new ↔
      ∃ p ∈ protocols, (if p.name = owner then p.append flow new else p) = q :=
  List.mem_map

theorem names_withPacket (protocols : List Protocol) (owner : String) (flow : Flow) (new : Packet) :
    (withPacket protocols owner flow new).map (·.name) = protocols.map (·.name) := by
  rw [withPacket, List.map_map]
  refine List.map_congr_left fun p _ => ?_
  rw [Function.comp_apply]
  split
  · exact p.name_append flow new
  · rfl

namespace History

/-- The packets of every flow have distinct names, and the ids they got are their positions. -/
structure Numbered (h : History) : Prop where
  protocols : (h.schema.protocols.map (·.name)).Nodup
  packets : ∀ p ∈ h.schema.protocols, ∀ flow, ((p.packets flow).map (·.name)).Nodup
  ids : ∀ p ∈ h.schema.protocols, ∀ flow, h.added p.name flow = (p.packets flow).zipIdx
  /-- Nothing was added to a protocol that there is not. -/
  unknown : ∀ owner, owner ∉ h.schema.protocols.map (·.name) → ∀ flow, h.added owner flow = []

theorem added_append (h : History) (s : Schema) (entry : Call × Except SchemaError (Option Nat))
    (owner : String) (flow : Flow) :
    added ⟨s, h.log ++ [entry]⟩ owner flow =
      h.added owner flow ++ (addedBy owner flow entry).toList := by
  rw [added, List.filterMap_append]
  cases found : addedBy owner flow entry with
  | none => simp [added, found]
  | some new => simp [added, found]

/-- A call that added no packet leaves the numbers as they are. -/
theorem added_silent (h : History) (s : Schema) (call : Call) (owner : String) (flow : Flow) :
    added ⟨s, h.log ++ [(call, .ok none)]⟩ owner flow = h.added owner flow := by
  rw [added_append]
  cases call <;> exact List.append_nil _

theorem added_refused (h : History) (s : Schema) (call : Call) (e : SchemaError) (owner : String)
    (flow : Flow) : added ⟨s, h.log ++ [(call, .error e)]⟩ owner flow = h.added owner flow := by
  rw [added_append]
  cases call <;> exact List.append_nil _

/-- Another packet of a flow gets the next id. -/
theorem Numbered.append {h : History} (numbered : h.Numbered) {p : Protocol} {flow : Flow}
    {new : Packet} {s : Schema} (member : p ∈ h.schema.protocols)
    (fresh : new.name ∉ (p.packets flow).map (·.name))
    (made : s.protocols = withPacket h.schema.protocols p.name flow new) :
    Numbered ⟨s, h.log ++ [(.packet p.name flow new, .ok (some (p.packets flow).length))]⟩ := by
  have logged (owner : String) (other : Flow) :
      added ⟨s, h.log ++ [(.packet p.name flow new, .ok (some (p.packets flow).length))]⟩
        owner other = h.added owner other ++
          if p.name = owner ∧ flow = other then [(new, (p.packets flow).length)] else [] := by
    rw [added_append, addedBy]
    split <;> rfl
  have names : s.protocols.map (·.name) = h.schema.protocols.map (·.name) := by
    rw [made, names_withPacket]
  constructor
  case protocols => exact names ▸ numbered.protocols
  case packets =>
    intro q present other
    obtain ⟨r, old, rfl⟩ := mem_withPacket.mp (made ▸ present)
    split
    case isFalse => exact numbered.packets r old other
    case isTrue same =>
      obtain rfl := List.inj_on_of_nodup_map numbered.protocols old member same
      rw [Protocol.packets_append]
      split
      case isFalse => simpa using numbered.packets r old other
      case isTrue here =>
        subst here
        rw [List.map_append, List.map_singleton, ← List.concat_eq_append]
        exact .concat fresh (numbered.packets r old flow)
  case ids =>
    intro q present other
    obtain ⟨r, old, rfl⟩ := mem_withPacket.mp (made ▸ present)
    rw [logged]
    split
    case isFalse different =>
      rw [if_neg fun both => different both.1.symm, List.append_nil]
      exact numbered.ids r old other
    case isTrue same =>
      obtain rfl := List.inj_on_of_nodup_map numbered.protocols old member same
      rw [Protocol.name_append, Protocol.packets_append, numbered.ids r old]
      by_cases here : flow = other
      · subst here
        simp [List.zipIdx_append]
      · simp [here]
  case unknown =>
    intro owner absent other
    have different : p.name ≠ owner := by
      rintro rfl
      exact absent (names ▸ List.mem_map_of_mem member)
    rw [logged, if_neg fun both => different both.1, List.append_nil]
    exact numbered.unknown owner (names ▸ absent) other

/-- Every call keeps the numbers right. -/
theorem Numbered.step {h : History} (numbered : h.Numbered) (call : Call) :
    (h.step call).Numbered := by
  unfold History.step
  split
  case h_2 e refused =>
    refine ⟨numbered.protocols, numbered.packets, ?_, ?_⟩
    · simpa only [added_refused] using numbered.ids
    · simpa only [added_refused] using numbered.unknown
  case h_1 id s ran =>
    rcases Call.apply_ok numbered.protocols ran with
      ⟨name, fresh, rfl, made⟩ | ⟨p, member, flow, new, rfl, fresh, rfl, made⟩ | ⟨rfl, made⟩
    · -- A protocol that was not there has no packets, and none were added to it.
      constructor
      case protocols =>
        rw [made, List.map_append, List.map_singleton, ← List.concat_eq_append]
        exact .concat fresh numbered.protocols
      case packets =>
        simp only [made, List.mem_append, List.mem_singleton]
        rintro p (old | rfl) flow
        · exact numbered.packets p old flow
        · cases flow <;> exact List.nodup_nil
      case ids =>
        simp only [made, List.mem_append, List.mem_singleton, added_silent]
        rintro p (old | rfl) flow
        · exact numbered.ids p old flow
        · rw [numbered.unknown _ fresh]
          cases flow <;> rfl
      case unknown =>
        intro owner absent flow
        rw [added_silent]
        simp only [made, List.map_append, List.mem_append, not_or] at absent
        exact numbered.unknown owner absent.1 flow
    · exact numbered.append member fresh made
    · refine ⟨?_, ?_, ?_, ?_⟩
      · exact made ▸ numbered.protocols
      · exact made ▸ numbered.packets
      · simpa only [added_silent, made] using numbered.ids
      · simpa only [added_silent, made] using numbered.unknown

theorem of_snoc (calls : List Call) (call : Call) :
    of (calls ++ [call]) = (of calls).step call := by
  rw [of, List.foldl_append]
  rfl

theorem numbered_of (calls : List Call) : (of calls).Numbered := by
  induction calls using List.reverseRecOn with
  | nil => exact ⟨.nil, nofun, nofun, fun _ _ _ => rfl⟩
  | append_singleton calls call ih =>
    rw [of_snoc]
    exact ih.step call

end History

/-! ### Packets stay where they are -/

/-- The protocol has the packets it had, in their places, and maybe more. -/
structure Keeps (p q : Protocol) : Prop where
  name : q.name = p.name
  packets : ∀ flow, p.packets flow <+: q.packets flow

/-- Every protocol is still there, with its packets in their places. -/
def Grows (s s' : Schema) : Prop := ∀ p ∈ s.protocols, ∃ q ∈ s'.protocols, Keeps p q

theorem Grows.refl (s : Schema) : s.Grows s :=
  fun p member => ⟨p, member, rfl, fun _ => List.prefix_rfl⟩

theorem Grows.trans {s₁ s₂ s₃ : Schema} (first : s₁.Grows s₂) (second : s₂.Grows s₃) :
    s₁.Grows s₃ := by
  intro p member
  obtain ⟨q, there, kept⟩ := first p member
  obtain ⟨r, still, kept'⟩ := second q there
  exact ⟨r, still, kept'.name.trans kept.name,
    fun flow => (kept.packets flow).trans (kept'.packets flow)⟩

end Schema

/-! ### Numbers in the generated code -/

namespace Generated

variable {packets : List WireSchema.Packet} {f : FlowUnit}

theorem FlowUnit.ids_of_numbered
    (numbered : f.packets.map (fun x => (x.id, x.name)) = Packet.numbered packets 0) :
    f.packets.map (·.id) = List.range f.packets.length := by
  have same : f.packets.length = packets.length := by
    simpa [Packet.numbered] using congrArg List.length numbered
  have first := congrArg (List.map Prod.fst) numbered
  rw [List.map_map, Packet.numbered, List.map_map] at first
  rw [same, List.range_eq_range', ← List.zipIdx_map_snd 0 packets]
  exact first

/-- Where ids are positions, the packet with an id is the one at that position. -/
theorem FlowUnit.packetById?_of_ids (ids : f.packets.map (·.id) = List.range f.packets.length)
    (k : Nat) : f.packetById? k = f.packets[k]? := by
  have placed (i : Nat) (inside : i < f.packets.length) : f.packets[i].id = i := by
    have there := congrArg (·[i]?) ids
    simpa [inside] using there
  by_cases inside : k < f.packets.length
  · have distinct : (f.packets.map fun p => (p.id : Int)).Nodup := by
      have mapped : (f.packets.map fun p => (p.id : Int)) =
          (List.range f.packets.length).map Int.ofNat := by
        rw [← ids, List.map_map]
        rfl
      rw [mapped]
      exact List.nodup_range.map fun i j same => Int.ofNat.inj same
    have found := find?_of_distinct distinct (List.getElem_mem inside)
    rw [placed k inside] at found
    rw [List.getElem?_eq_getElem inside]
    exact found
  · rw [List.getElem?_eq_none (Nat.le_of_not_lt inside)]
    refine List.find?_eq_none.mpr fun p member same => inside ?_
    obtain ⟨i, bound, rfl⟩ := List.getElem_of_mem member
    have here : f.packets[i].id = k := Int.ofNat.inj (eq_of_beq same)
    rw [← here, placed i bound]
    exact bound

variable {g : Generated} {s : Schema}

/-- The flows in use are those with packets. -/
theorem find?_used (p : WireSchema.Protocol) (flow : Flow) :
    (Flow.all.filter fun flow => !(p.packets flow).isEmpty).find? (· == flow) =
      if p.packets flow = [] then none else some flow := by
  by_cases empty : p.packets flow = []
  · rw [if_pos empty, List.find?_eq_none]
    intro other used same
    obtain rfl := eq_of_beq same
    simp [empty] at used
  · have distinct : (((Flow.all.filter fun flow => !(p.packets flow).isEmpty)).map id).Nodup :=
      List.map_id _ ▸ List.Nodup.filter _ (by decide)
    have used : flow ∈ Flow.all.filter fun flow => !(p.packets flow).isEmpty := by
      refine List.mem_filter.mpr ⟨?_, by simpa using empty⟩
      cases flow <;> decide
    rw [if_neg empty]
    exact find?_of_distinct distinct used

/-- The generated protocol has the flows with packets, and `R` says what each was made of. -/
structure Protocol.HasFlows (R : List WireSchema.Packet → FlowUnit → Prop)
    (p : WireSchema.Protocol) (q : Protocol) : Prop where
  name : q.name = p.name
  flows : List.Forall₂ (fun flow f => f.flow = flow ∧ R (p.packets flow) f)
    (Flow.all.filter fun flow => !(p.packets flow).isEmpty) q.flows

/-- The code of a flow is made of its packets, and a flow without packets has no code. -/
theorem flowOf_of_flows {R : List WireSchema.Packet → FlowUnit → Prop}
    (made : List.Forall₂ (Protocol.HasFlows R) s.protocols g.protocols) (name : String)
    (flow : Flow) :
    (∃ p f, s.protocols.find? (·.name == name) = some p ∧ p.packets flow ≠ [] ∧
      g.flowOf name flow = .ok f ∧ R (p.packets flow) f) ∨
    ((∀ p, s.protocols.find? (·.name == name) = some p → p.packets flow = []) ∧
      g.flowOf name flow = .error (.unknownFlow (name ++ "/" ++ flow.name))) := by
  have first : Option.Rel (Protocol.HasFlows R) (s.protocols.find? (·.name == name))
      (g.protocol? name) := rel_find? made fun p q same => by rw [same.name]
  unfold Generated.flowOf
  generalize s.protocols.find? (·.name == name) = p, g.protocol? name = q at first ⊢
  cases first with
  | none => exact .inr ⟨nofun, rfl⟩
  | @some p q same =>
    have second := rel_find? same.flows (p := (· == flow)) (q := (·.flow == flow))
      fun _ _ there => by rw [there.1]
    rw [find?_used] at second
    simp only [Option.bind_some, Protocol.flow?]
    generalize q.flows.find? (·.flow == flow) = f at second ⊢
    by_cases empty : p.packets flow = []
    · rw [if_pos empty] at second
      cases second
      refine .inr ⟨?_, rfl⟩
      rintro _ ⟨⟩
      exact empty
    · rw [if_neg empty] at second
      cases second with
      | @some _ f there => exact .inl ⟨p, f, rfl, empty, rfl, there.2⟩

theorem flowOf_of_numbers (numbers : List.Forall₂ Protocol.Numbers s.protocols g.protocols)
    (name : String) (flow : Flow) :
    (∃ p f, s.protocols.find? (·.name == name) = some p ∧ p.packets flow ≠ [] ∧
      g.flowOf name flow = .ok f ∧
      f.packets.map (fun x => (x.id, x.name)) = Packet.numbered (p.packets flow) 0) ∨
    ((∀ p, s.protocols.find? (·.name == name) = some p → p.packets flow = []) ∧
      g.flowOf name flow = .error (.unknownFlow (name ++ "/" ++ flow.name))) :=
  flowOf_of_flows (R := fun packets f =>
    f.packets.map (fun x => (x.id, x.name)) = Packet.numbered packets 0)
    (numbers.imp fun _ _ numbered => ⟨numbered.name, numbered.flows⟩) name flow

end Generated

end WireSchema
