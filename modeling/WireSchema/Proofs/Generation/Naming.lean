import WireSchema.Print.Module
import WireSchema.Proofs.Generation.Numbering

/-!
# Names in generated code

Names of a schema are told apart as they are written, names of the generated code after they were
put into the style of an identifier, in which two of them may become the same. A packet is found
under its own name unless the struct of a packet before it is called so; the handlers of a flow
differ unless one that was numbered to be told apart is in use already; and the files of a schema
have different paths unless the modules of two protocols have one name.
-/

namespace WireSchema

open Lowering

/-! ### Structs and handlers -/

namespace Generate

variable {hooks : Hooks} {em : Emitter} {σ τ : Session}

/-- The names of the struct and of the handler come from the name of the packet. -/
theorem names_of_packet {id : Nat} {p : Packet} {q : Generated.Packet}
    (ran : Gen.Runs (packet hooks em id p) σ q τ) :
    q.typeName = Naming.typeName p.name ∧ q.handler = Naming.handlerMethod p.name := by
  obtain ⟨_, ran, _⟩ := Gen.runs_withHint.mp ran
  simp only [Gen.runs_bind, Gen.runs_pure] at ran
  obtain ⟨fields, _, _, _, _, _, decode, _, _, _, _, _, this, _, _, body, _, _, rfl, _⟩ := ran
  constructor <;> dsimp only

/-- The handler of a packet where the handlers `before` are in use. -/
def handlerAfter (before : List String) (q : Generated.Packet) : String :=
  if Naming.handlerMethod q.name ∈ before then numberedHandler q else Naming.handlerMethod q.name

/-- The structs are called after their packets. So are the handlers, unless one before is called so;
those in `taken` are before all. -/
structure Named (taken : List String) (packets : List Generated.Packet) : Prop where
  types : ∀ q ∈ packets, q.typeName = Naming.typeName q.name
  handlers : ∀ front q back, packets = front ++ q :: back →
    q.handler = handlerAfter (taken ++ front.map (·.handler)) q

theorem Named.cons {taken : List String} {q : Generated.Packet} {rest : List Generated.Packet}
    (type : q.typeName = Naming.typeName q.name) (handler : q.handler = handlerAfter taken q)
    (others : Named (q.handler :: taken) rest) : Named taken (q :: rest) where
  types := List.forall_mem_cons.mpr ⟨type, others.types⟩
  handlers front r back split := by
    cases front with
    | nil =>
      obtain ⟨rfl, rfl⟩ := List.cons.inj split
      simpa using handler
    | cons first front =>
      obtain ⟨rfl, rest⟩ := List.cons.inj split
      have later := others.handlers front r back rest
      simp only [handlerAfter, List.map_cons, List.mem_append, List.mem_cons] at later ⊢
      rw [later]
      congr 1
      rw [eq_iff_iff, or_assoc]
      exact or_left_comm

theorem named_of_packetsFrom {packets : List Packet} {handlers : List String} {start : Nat}
    {out : List Generated.Packet}
    (ran : Gen.Runs (packetsFrom hooks em handlers start packets) σ out τ) :
    Named handlers out := by
  induction packets generalizing handlers start σ out with
  | nil =>
    obtain ⟨rfl, _⟩ := Gen.runs_pure.mp ran
    exact ⟨nofun, by simp⟩
  | cons p rest ih =>
    simp only [packetsFrom, Gen.runs_bind, Gen.runs_pure] at ran
    obtain ⟨q, _, first, others, _, later, rfl, rfl⟩ := ran
    have same : q.name = p.name := congrArg Prod.snd (tag_of_packet first)
    obtain ⟨type, own⟩ := names_of_packet first
    rw [← same] at type own
    simp only [List.contains_iff_mem, own] at later ⊢
    -- The number is made of the name and the id, so the old handler does not matter for it.
    by_cases taken : Naming.handlerMethod q.name ∈ handlers
    · have numbered (handler : String) :
          handlerAfter handlers { q with handler } = numberedHandler q := if_pos taken
      rw [if_pos taken] at later ⊢
      exact .cons type (numbered _).symm (ih later)
    · have kept : handlerAfter handlers q = Naming.handlerMethod q.name := if_neg taken
      rw [if_neg taken] at later ⊢
      exact .cons type (own.trans kept.symm) (ih later)

end Generate

/-- The packets of every flow are named in order. -/
theorem Schema.named_of_generate {hooks : Hooks} {s : Schema} {g : Generated}
    (ran : s.generate hooks = .ok g) :
    ∀ q ∈ g.protocols, ∀ f ∈ q.flows, Generate.Named [] f.packets := by
  obtain ⟨protocols, τ, units, _, _, packed⟩ := generate_ok ran
  obtain ⟨σ, _, generated⟩ := Schema.runs_generateUnits.mp units
  rw [packed, List.forall_mem_map]
  intro q member
  rw [List.forall_mem_map]
  intro f inside
  obtain ⟨p, _, _, _, ran⟩ := exists_rel_of_mem (Gen.forall₂_of_runs_mapM generated) member
  simp only [Generate.protocol, Gen.runs_bind, Gen.runs_pure] at ran
  obtain ⟨flows, _, ran, rfl, _⟩ := ran
  obtain ⟨flow, _, _, _, ran⟩ := exists_rel_of_mem (Gen.forall₂_of_runs_mapM ran) inside
  simp only [Generate.onNewDraft, Gen.runs_bind, Gen.runs_updateDraft, Gen.runs_pure] at ran
  obtain ⟨_, _, _, packets, _, ran, rfl, _⟩ := ran
  exact Generate.named_of_packetsFrom ran

namespace Generated

variable {f : FlowUnit} {front back : List Packet} {q : Packet}

/-- The handlers of a flow differ unless a packet is numbered whose number does not help: a handler
before it is called so. -/
theorem FlowUnit.handlers_nodup_iff (named : Generate.Named [] f.packets) :
    (f.packets.map (·.handler)).Nodup ↔ ∀ front q back, f.packets = front ++ q :: back →
      Naming.handlerMethod q.name ∈ front.map (·.handler) →
      Generate.numberedHandler q ∉ front.map (·.handler) := by
  rw [nodup_iff_fresh]
  refine forall_congr' fun front => forall_congr' fun q => forall_congr' fun back => ?_
  refine imp_congr_right fun split => ?_
  rw [named.handlers front q back split, List.nil_append, Generate.handlerAfter]
  split
  case isTrue taken => exact ⟨fun fresh _ => fresh, fun fresh => fresh taken⟩
  case isFalse free => exact ⟨fun _ taken => absurd taken free, fun _ => free⟩

/-! ### Packets by name -/

theorem FlowUnit.names_of_numbered {packets : List WireSchema.Packet}
    (numbered : f.packets.map (fun x => (x.id, x.name)) = Packet.numbered packets 0) :
    f.packets.map (·.name) = packets.map (·.name) := by
  have second := congrArg (List.map Prod.snd) numbered
  rw [List.map_map, Packet.numbered, List.map_map] at second
  rw [← List.zipIdx_map_fst 0 packets, List.map_map]
  exact second

/-- A packet whose name is new is found under it exactly when no packet before it has a struct of that
name. -/
theorem FlowUnit.packetByName?_iff (named : Generate.Named [] f.packets)
    (split : f.packets = front ++ q :: back) (fresh : ∀ other ∈ front, other.name ≠ q.name) :
    f.packetByName? q.name = some q ↔
      ∀ other ∈ front, Naming.typeName other.name ≠ q.name := by
  have types : ∀ other ∈ front, other.typeName = Naming.typeName other.name :=
    fun other member => named.types other (split ▸ List.mem_append_left _ member)
  unfold FlowUnit.packetByName?
  rw [split, List.find?_append]
  -- Whatever the search finds in `front` is not `q`, whose name is new.
  constructor
  · intro found other member same
    cases first : front.find? fun p => p.name == q.name || p.typeName == q.name with
    | none =>
      have missed := List.find?_eq_none.mp first other member
      simp [types other member, same] at missed
    | some early =>
      obtain rfl : early = q := by simpa [first] using found
      exact fresh early (List.mem_of_find?_eq_some first) rfl
  · intro clear
    have none : (front.find? fun p => p.name == q.name || p.typeName == q.name) = none := by
      refine List.find?_eq_none.mpr fun other member => ?_
      simp [fresh other member, types other member, clear other member]
    rw [none, Option.none_or]
    exact List.find?_cons_of_pos (by simp)

theorem mem_of_flowOf {g : Generated} {name : String} {flow : Flow}
    (unit : g.flowOf name flow = .ok f) : ∃ p ∈ g.protocols, f ∈ p.flows := by
  unfold flowOf at unit
  split at unit
  case h_2 => cases unit
  case h_1 found =>
    cases unit
    obtain ⟨p, known, there⟩ := Option.bind_eq_some_iff.mp found
    exact ⟨p, List.mem_of_find?_eq_some known, List.mem_of_find?_eq_some there⟩

end Generated

/-! ### Paths -/

namespace Print

/-- What may follow the directory of a protocol in the paths of its files. -/
def endings : List String := ["/mod.rs", "/serverbound.rs", "/clientbound.rs"]

/-- What follows the directory of a protocol in the path of the file of a flow. -/
def flowEnding (flow : Flow) : String := "/" ++ flow.name ++ ".rs"

theorem flowEnding_mem (flow : Flow) : flowEnding flow ∈ endings := by
  cases flow <;> decide

/-- No ending is part of another, so a path tells the directory from the ending. -/
theorem path_unique {dir dir' ending ending' : String} (known : ending ∈ endings)
    (known' : ending' ∈ endings) (same : dir ++ ending = dir' ++ ending') :
    dir = dir' ∧ ending = ending' := by
  have chars : dir.toList ++ ending.toList = dir'.toList ++ ending'.toList := by
    rw [← String.toList_append, same, String.toList_append]
  -- Read from the end, two endings differ before either of them is over.
  have backwards := congrArg List.reverse chars
  simp only [List.reverse_append] at backwards
  obtain rfl : ending = ending' := by
    simp only [endings, List.mem_cons, List.not_mem_nil, or_false] at known known'
    rcases known with rfl | rfl | rfl <;> rcases known' with rfl | rfl | rfl <;>
      first | rfl | simp at backwards
  exact ⟨String.toList_inj.mp (List.append_cancel_right chars), rfl⟩

/-- The paths of the files of a protocol. -/
def paths (p : Generated.Protocol) : List String :=
  ("/mod.rs" :: p.flows.map fun f => flowEnding f.flow).map (Naming.memberName p.name ++ ·)

theorem paths_of_protocol (o : PrintOptions) (g : Generated) (p : Generated.Protocol) :
    (protocolFiles o g p).map (·.1) = paths p := by
  simp only [protocolFiles, paths, flowEnding, List.map_cons, List.map_map, Function.comp_def,
    String.append_assoc]

theorem paths_of_files (g : Generated) (o : PrintOptions) :
    (g.files o).map (·.1) = "types.rs" :: g.protocols.flatMap paths ++ ["mod.rs"] := by
  simp only [Generated.files, List.map_map, Function.comp_def, List.map_append, List.map_cons,
    List.map_flatMap, paths_of_protocol, List.map_nil]

theorem ending_of_path {p : Generated.Protocol} {path : String} (member : path ∈ paths p) :
    ∃ ending ∈ endings, path = Naming.memberName p.name ++ ending := by
  obtain ⟨ending, found, rfl⟩ := List.mem_map.mp member
  refine ⟨ending, ?_, rfl⟩
  rcases List.mem_cons.mp found with rfl | flow
  · exact List.mem_cons_self ..
  · obtain ⟨f, _, rfl⟩ := List.mem_map.mp flow
    exact flowEnding_mem f.flow

theorem paths_nodup {p : Generated.Protocol} (distinct : (p.flows.map (·.flow)).Nodup) :
    (paths p).Nodup := by
  have apart (flow : Flow) : flowEnding flow ≠ "/mod.rs" := by cases flow <;> decide
  have injective : Function.Injective flowEnding := by
    intro flow flow' same
    cases flow <;> cases flow' <;> first | rfl | exact absurd same (by decide)
  have endings : ("/mod.rs" :: p.flows.map fun f => flowEnding f.flow).Nodup := by
    refine List.nodup_cons.mpr ⟨?_, ?_⟩
    · intro found
      obtain ⟨f, _, same⟩ := List.mem_map.mp found
      exact apart f.flow same
    · have mapped := distinct.map injective
      rwa [List.map_map] at mapped
  exact endings.map fun _ _ same => (String.append_right_inj _).mp same

/-- The files of protocols have different paths exactly when their directories differ. -/
theorem disjoint_paths_iff {p q : Generated.Protocol} :
    (paths p).Disjoint (paths q) ↔ Naming.memberName p.name ≠ Naming.memberName q.name := by
  constructor
  · intro disjoint same
    have first (p : Generated.Protocol) : Naming.memberName p.name ++ "/mod.rs" ∈ paths p :=
      List.mem_map_of_mem (List.mem_cons_self ..)
    have there := first q
    rw [← same] at there
    exact disjoint (first p) there
  · intro differ path here there
    obtain ⟨ending, known, rfl⟩ := ending_of_path here
    obtain ⟨ending', known', same⟩ := ending_of_path there
    exact differ (path_unique known known' same).1

end Print

/-- The files of a schema have different paths exactly when the modules of the protocols have
different names. -/
theorem Generated.paths_nodup_iff {g : Generated} (o : PrintOptions)
    (distinct : ∀ p ∈ g.protocols, (p.flows.map (·.flow)).Nodup) :
    ((g.files o).map (·.1)).Nodup ↔ (g.protocols.map fun p => Naming.memberName p.name).Nodup := by
  have apart (name : String) (short : ∀ ending ∈ Print.endings, ¬ending.toList <:+ name.toList) :
      name ∉ g.protocols.flatMap Print.paths := by
    intro found
    obtain ⟨p, _, inside⟩ := List.mem_flatMap.mp found
    obtain ⟨ending, known, rfl⟩ := Print.ending_of_path inside
    exact short ending known ⟨_, String.toList_append.symm⟩
  have types := apart "types.rs" (by decide)
  have root := apart "mod.rs" (by decide)
  have others : ((g.files o).map (·.1)).Nodup ↔ (g.protocols.flatMap Print.paths).Nodup := by
    rw [Print.paths_of_files, ← List.concat_eq_append, List.nodup_concat, List.nodup_cons]
    simp [types, root]
  rw [others, List.nodup_flatMap, List.Nodup, List.pairwise_map]
  constructor
  · rintro ⟨_, disjoint⟩
    exact disjoint.imp Print.disjoint_paths_iff.mp
  · intro differ
    exact ⟨fun p member => Print.paths_nodup (distinct p member),
      differ.imp Print.disjoint_paths_iff.mpr⟩

/-! ### Names of a schema -/

namespace Schema

variable {hooks : Hooks} {g : Generated}

/-- The names by which generated code is told apart, with what it takes to be distinct: for files
and structs that names stay distinct in the style of an identifier, and for handlers that no packet
is given a number in vain. -/
theorem names_differ_iff {s : Schema} (ran : s.generate hooks = .ok g) (o : PrintOptions) :
    (((g.files o).map (·.1)).Nodup ↔
      (s.protocols.map fun p => Naming.memberName p.name).Nodup) ∧
    ∀ p ∈ g.protocols, ∀ f ∈ p.flows,
      ((f.packets.map (·.typeName)).Nodup ↔
        (f.packets.map fun q => Naming.typeName q.name).Nodup) ∧
      ((f.packets.map (·.handler)).Nodup ↔ ∀ front q back, f.packets = front ++ q :: back →
        Naming.handlerMethod q.name ∈ front.map (·.handler) →
        Generate.numberedHandler q ∉ front.map (·.handler)) := by
  have numbers := numbers_of_generate ran
  have flows : ∀ p ∈ g.protocols, (p.flows.map (·.flow)).Nodup := by
    intro p member
    obtain ⟨q, _, same⟩ := exists_rel_of_mem numbers member
    have used := map_eq_of_rel same.flows (f := id) (g := (·.flow)) fun _ _ there => there.1.symm
    rw [← used, List.map_id]
    exact List.Nodup.filter _ (by decide)
  have modules : (s.protocols.map fun p => Naming.memberName p.name) =
      g.protocols.map fun p => Naming.memberName p.name :=
    map_eq_of_rel numbers fun _ _ same => by rw [same.name]
  refine ⟨modules ▸ Generated.paths_nodup_iff o flows, fun p member f inside => ?_⟩
  have named := named_of_generate ran p member f inside
  have types : f.packets.map (·.typeName) = f.packets.map fun q => Naming.typeName q.name :=
    List.map_congr_left named.types
  exact ⟨by rw [types], Generated.FlowUnit.handlers_nodup_iff named⟩

/-- After any calls, a packet is found and encoded under its own name exactly when no packet before
it has a struct of that name. -/
theorem found_by_name_iff {calls : List Call}
    (ran : (History.of calls).schema.generate hooks = .ok g) {name : String} {flow : Flow}
    {f : Generated.FlowUnit} (unit : g.flowOf name flow = .ok f)
    {front back : List Generated.Packet} {q : Generated.Packet}
    (split : f.packets = front ++ q :: back) :
    (f.packetByName? q.name = some q ↔
      ∀ other ∈ front, Naming.typeName other.name ≠ q.name) ∧
    ((∀ other ∈ front, Naming.typeName other.name ≠ q.name) → ∀ order v,
      g.encodePacket order name flow q.name v = g.runEncoder order q.this q.encode v) := by
  obtain ⟨p, member, inside⟩ := Generated.mem_of_flowOf unit
  have named := named_of_generate ran p member f inside
  have distinct : (f.packets.map (·.name)).Nodup := by
    rcases Generated.flowOf_of_numbers (numbers_of_generate ran) name flow with
      ⟨p, f', found, _, unit', numbered⟩ | ⟨_, none⟩
    case inr => cases unit.symm.trans none
    obtain rfl : f = f' := Except.ok.inj (unit.symm.trans unit')
    rw [Generated.FlowUnit.names_of_numbered numbered]
    exact (History.numbered_of calls).packets p (List.mem_of_find?_eq_some found) flow
  have fresh : ∀ other ∈ front, other.name ≠ q.name := fun other member same =>
    nodup_iff_fresh.mp distinct front q back split (List.mem_map.mpr ⟨other, member, same⟩)
  have found := Generated.FlowUnit.packetByName?_iff named split fresh
  refine ⟨found, fun clear order v => ?_⟩
  simp only [Generated.encodePacket, unit, bind, Except.bind, found.mpr clear]

-- So a packet `FooBar` after a packet `foo_bar` is not found under its name.
example : Naming.typeName "foo_bar" = "FooBar" := by decide +kernel

end Schema

end WireSchema
