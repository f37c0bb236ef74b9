import WireSchema.Proofs.Source.Cycles
import WireSchema.Proofs.Source.Formed

/-!
# Schemas of declarations

The types of a text are built one after another, each with those before it, and then the packets with
all types. What a declaration unfolds to is settled by the declarations alone: whoever solves their
equations knows it, in whatever order they are built.

## Main results

* `schemaOf_ok`: what a schema is made of.
* `exists_ordered`: its types are ranked.
* `buildsTypes_of_meets`: declarations that can be built with some lookup can be built in any order.
-/

namespace WireSchema.Source

variable {g g' : Nat} {names : List String}

/-! ### Folds -/

/-- Two folds whose steps keep a relation end in related states. -/
theorem foldlM_related {α σ τ : Type} {R : σ → τ → Prop} {step : σ → α → Except SchemaError σ}
    {step' : τ → α → Except SchemaError τ} : ∀ {as : List α} {s s' : σ} {t : τ},
    (∀ a ∈ as, ∀ s s' t, R s t → step s a = .ok s' → ∃ t', step' t a = .ok t' ∧ R s' t') →
    R s t → as.foldlM step s = .ok s' → ∃ t', as.foldlM step' t = .ok t' ∧ R s' t'
  | [], s, s', t, _, related, ran => by
    cases ran
    exact ⟨t, rfl, related⟩
  | a :: as, s, s', t, each, related, ran => by
    rw [List.foldlM_cons] at ran
    obtain ⟨s₁, first, others⟩ := bind_ok.mp ran
    obtain ⟨t₁, first', related₁⟩ := each a (List.mem_cons_self ..) s s₁ t related first
    obtain ⟨t', others', related'⟩ := foldlM_related
      (fun b member => each b (List.mem_cons_of_mem _ member)) related₁ others
    refine ⟨t', ?_, related'⟩
    rw [List.foldlM_cons, first']
    exact others'

/-- What every step keeps is kept by a fold. -/
theorem foldlM_kept {α σ : Type} {P : σ → Prop} {step : σ → α → Except SchemaError σ} {as : List α}
    {s s' : σ} (each : ∀ a ∈ as, ∀ s s', P s → step s a = .ok s' → P s') (holds : P s)
    (ran : as.foldlM step s = .ok s') : P s' := by
  let idle (_ : Unit) (_ : α) : Except SchemaError Unit := .ok ()
  have step (a : α) (member : a ∈ as) (s s' : σ) (t : Unit) (holds : P s)
      (ran : step s a = .ok s') : ∃ t', idle t a = .ok t' ∧ P s' :=
    ⟨(), rfl, each a member s s' holds ran⟩
  obtain ⟨_, _, kept⟩ := foldlM_related (R := fun s (_ : Unit) => P s) (t := ()) step holds ran
  exact kept

/-! ### Types -/

/-- A declared type as it is used. -/
def TypeDecl.wrap (d : TypeDecl) (s : Shape) : Shape :=
  if d.exported then .exported d.name s else .alias d.name s

theorem TypeDecl.wrap_form (d : TypeDecl) (s : Shape) :
    d.wrap s = .alias d.name s ∨ d.wrap s = .exported d.name s := by
  unfold TypeDecl.wrap
  split
  · exact .inr rfl
  · exact .inl rfl

theorem TypeDecl.tagKind_wrap (d : TypeDecl) (s : Shape) : tagKind (d.wrap s) = .i32 := by
  rcases d.wrap_form s with same | same <;> rw [same] <;> rfl

theorem TypeDecl.unfold_wrap (d : TypeDecl) (s : Shape) (target : String → Shape) :
    (d.wrap s).unfoldWith target = d.wrap (s.unfoldWith target) := by
  unfold TypeDecl.wrap
  split <;> rfl

/-- The types are built one after another, where `known` are built already; this gives the table
of what they are, in their order. -/
def BuildsTypes (names : List String) : List TypeDecl → Refs → Nat → Refs → Nat → Prop
  | [], _, g, table, g' => table = [] ∧ g' = g
  | d :: ds, known, g, table, g' => ∃ s g₁ rest,
    Builds (d.type.shape (lookupIn names known)) g s g₁ ∧
    BuildsTypes names ds ((d.name, d.wrap s) :: known) g₁ rest g' ∧
    table = (d.name, d.wrap s) :: rest

/-- The assembly with more types. -/
def Assembly.withTypes (a : Assembly) (table : Refs) (nextGroup : Nat) : Assembly where
  schema := { a.schema with
    types := a.schema.types ++ table
    refs := a.schema.refs ++ table
    nextGroup }
  known := table.reverse ++ a.known

theorem lookup_none_iff {α : Type} {entries : List (String × α)} {name : String} :
    entries.lookup name = none ↔ name ∉ entries.map (·.1) := by
  induction entries with
  | nil => simp
  | cons entry rest ih =>
    obtain ⟨other, a⟩ := entry
    rw [List.lookup_cons]
    by_cases same : name = other
    · simp [same]
    · simp [same, beq_false_of_ne same, ih]

theorem building_ok {α : Type} {a b : Assembly} {act : Build α} {out : α} :
    a.building act = .ok (out, b) ↔ ∃ g, Builds act a.schema.nextGroup out g ∧
      b = { a with schema := { a.schema with nextGroup := g } } := by
  unfold Assembly.building Builds
  cases ran : act.run a.schema.nextGroup with
  | error e =>
    constructor
    · intro ran
      cases ran
    · rintro ⟨_, ran, _⟩
      cases ran
  | ok result =>
    obtain ⟨out', g⟩ := result
    constructor
    · intro same
      cases same
      exact ⟨g, rfl, rfl⟩
    · rintro ⟨_, same, rfl⟩
      cases same
      rfl

/-- A type whose name is free is declared, and what comes next goes on with it. -/
theorem declare_bind {α : Type} {s : Schema} {d : TypeDecl} (free : d.name ∉ s.types.map (·.1))
    (x : Shape) (next : Shape × Schema → Except SchemaError α) :
    (if d.exported then s.exportType d.name x >>= next else s.declareType d.name x >>= next) =
      next (d.wrap x, { s with types := s.types ++ [(d.name, d.wrap x)] }) := by
  have notAny : ¬(s.types.any (·.1 == d.name)) = true := by
    intro found
    obtain ⟨entry, member, same⟩ := List.any_eq_true.mp found
    exact free (List.mem_map.mpr ⟨entry, member, eq_of_beq same⟩)
  simp only [Schema.exportType, Schema.declareType, Schema.addType, if_neg notAny, TypeDecl.wrap]
  split <;> rfl

theorem resolve_ok {s : Schema} {label : String} (free : label ∉ s.refs.map (·.1)) (x : Shape) :
    s.resolve label x = .ok { s with refs := s.refs ++ [(label, x)] } := by
  rw [Schema.resolve, Refs.resolve, lookup_none_iff.mpr free]
  rfl

theorem addType_ok {a b : Assembly} {d : TypeDecl} (free : d.name ∉ a.schema.types.map (·.1))
    (unresolved : d.name ∉ a.schema.refs.map (·.1)) :
    a.addType names d = .ok b ↔ ∃ s g,
      Builds (d.type.shape (lookupIn names a.known)) a.schema.nextGroup s g ∧
      b = a.withTypes [(d.name, d.wrap s)] g := by
  rw [Assembly.addType, bind_ok]
  constructor
  · rintro ⟨⟨s, a₁⟩, built, ran⟩
    obtain ⟨g, builds, rfl⟩ := building_ok.mp built
    have ran := (declare_bind (s := { a.schema with nextGroup := g }) free s _).symm.trans ran
    obtain ⟨schema, resolved, same⟩ := bind_ok.mp ran
    rw [resolve_ok (by exact unresolved)] at resolved
    cases resolved
    exact ⟨s, g, builds, pure_ok.mp same⟩
  · rintro ⟨s, g, builds, rfl⟩
    refine ⟨(s, _), building_ok.mpr ⟨g, builds, rfl⟩, ?_⟩
    refine (declare_bind (s := { a.schema with nextGroup := g }) free s _).trans ?_
    exact bind_ok.mpr ⟨_, resolve_ok (by exact unresolved) _, rfl⟩

theorem addTypes_ok : ∀ {ds : List TypeDecl} {a b : Assembly}, (ds.map (·.name)).Nodup →
    (∀ d ∈ ds, d.name ∉ a.schema.types.map (·.1) ∧ d.name ∉ a.schema.refs.map (·.1)) →
    (ds.foldlM (Assembly.addType names) a = .ok b ↔ ∃ table g,
      BuildsTypes names ds a.known a.schema.nextGroup table g ∧ b = a.withTypes table g)
  | [], a, b, _, _ => by
    have same : a.withTypes [] a.schema.nextGroup = a := by
      simp [Assembly.withTypes]
    constructor
    · intro ran
      cases ran
      exact ⟨[], _, ⟨rfl, rfl⟩, same.symm⟩
    · rintro ⟨_, _, ⟨rfl, rfl⟩, rfl⟩
      rw [same]
      rfl
  | d :: ds, a, b, nodup, free => by
    rw [List.map_cons, List.nodup_cons] at nodup
    obtain ⟨freeType, freeRef⟩ := free d (List.mem_cons_self ..)
    -- The names of the later types are still free once the first is built.
    have later (s : Shape) (g : Nat) (e : TypeDecl) (member : e ∈ ds) :
        e.name ∉ (a.withTypes [(d.name, d.wrap s)] g).schema.types.map (·.1) ∧
        e.name ∉ (a.withTypes [(d.name, d.wrap s)] g).schema.refs.map (·.1) := by
      have other : e.name ≠ d.name := fun same => nodup.1 (List.mem_map.mpr ⟨e, member, same⟩)
      have old := free e (List.mem_cons_of_mem _ member)
      simp only [Assembly.withTypes, List.map_append, List.map_cons, List.map_nil,
        List.mem_append, List.mem_singleton]
      exact ⟨fun found => found.elim old.1 other, fun found => found.elim old.2 other⟩
    have joined (s : Shape) (g g' : Nat) (rest : Refs) :
        (a.withTypes [(d.name, d.wrap s)] g).withTypes rest g' =
          a.withTypes ((d.name, d.wrap s) :: rest) g' := by
      simp [Assembly.withTypes]
    rw [List.foldlM_cons, bind_ok]
    constructor
    · rintro ⟨a₁, first, others⟩
      obtain ⟨s, g, builds, rfl⟩ := (addType_ok freeType freeRef).mp first
      obtain ⟨rest, g', ofRest, rfl⟩ := (addTypes_ok nodup.2 (later s g)).mp others
      exact ⟨_, g', ⟨s, g, rest, builds, ofRest, rfl⟩, joined s g g' rest⟩
    · rintro ⟨table, g', ⟨s, g, rest, builds, ofRest, rfl⟩, rfl⟩
      refine ⟨_, (addType_ok freeType freeRef).mpr ⟨s, g, builds, rfl⟩, ?_⟩
      exact (addTypes_ok nodup.2 (later s g)).mpr ⟨rest, g', ofRest, (joined s g g' rest).symm⟩

theorem BuildsTypes.keys : ∀ {ds : List TypeDecl} {known : Refs} {g g' : Nat} {table : Refs},
    BuildsTypes names ds known g table g' → table.map (·.1) = ds.map (·.name)
  | [], _, _, _, _, ⟨empty, _⟩ => by
    subst empty
    rfl
  | d :: ds, _, _, _, _, ⟨s, _, rest, _, ofRest, same⟩ => by
    subst same
    rw [List.map_cons, List.map_cons, ofRest.keys]

theorem checkNames_ok : ∀ {ds : List TypeDecl} {seen : List String}, checkNames seen ds = .ok () ↔
    (ds.map (·.name)).Nodup ∧ ∀ name ∈ ds.map (·.name), name ∉ seen
  | [], seen => by simp [checkNames]
  | d :: ds, seen => by
    rw [checkNames]
    by_cases taken : d.name ∈ seen
    · rw [if_pos (List.elem_iff.mpr taken)]
      constructor
      · intro ran
        cases ran
      · rintro ⟨_, fresh⟩
        exact absurd taken (fresh d.name (List.mem_cons_self ..))
    · rw [if_neg fun found => taken (List.elem_iff.mp found), checkNames_ok, List.map_cons,
        List.nodup_cons, List.forall_mem_cons]
      constructor
      · rintro ⟨nodup, fresh⟩
        refine ⟨⟨fun twice => fresh _ twice (List.mem_cons_self ..), nodup⟩, taken, ?_⟩
        exact fun name member early => fresh name member (List.mem_cons_of_mem _ early)
      · rintro ⟨⟨once, nodup⟩, _, fresh⟩
        refine ⟨nodup, fun name member early => ?_⟩
        rcases List.mem_cons.mp early with rfl | older
        · exact once member
        · exact fresh name member older

/-- The assembly once all types are built. -/
def Assembly.ofTypes (table : Refs) (nextGroup : Nat) : Assembly where
  schema := { types := table, refs := table, nextGroup }
  known := table.reverse

/-- What a schema is made of: its types are built first, then its protocols. -/
theorem schemaOf_ok {items : List Item} {s : Schema} : schemaOf g items = .ok s ↔
    ((items.filterMap Item.type?).map (·.name)).Nodup ∧ ∃ table g₁ a,
      BuildsTypes ((items.filterMap Item.type?).map (·.name)) (items.filterMap Item.type?) [] g
        table g₁ ∧
      (Mentions.ofDecls (items.filterMap Item.type?)).check = .ok () ∧
      (items.filterMap Item.protocol?).foldlM (Assembly.addProtocol
        (lookupIn ((items.filterMap Item.type?).map (·.name)) table.reverse))
        (Assembly.ofTypes table g₁) = .ok a ∧ a.schema = s := by
  have started (table : Refs) (g₁ : Nat) :
      ({ schema := { nextGroup := g } } : Assembly).withTypes table g₁ =
        Assembly.ofTypes table g₁ := by
    simp [Assembly.withTypes, Assembly.ofTypes]
  simp only [schemaOf, bind_ok, pure_ok]
  constructor
  · rintro ⟨_, checked, a, built, _, acyclic, b, added, rfl⟩
    have nodup := (checkNames_ok.mp checked).1
    obtain ⟨table, g₁, builds, rfl⟩ := (addTypes_ok nodup fun d _ => by simp).mp built
    rw [started] at added
    exact ⟨nodup, table, g₁, b, builds, acyclic, added, rfl⟩
  · rintro ⟨nodup, table, g₁, b, builds, acyclic, added, rfl⟩
    refine ⟨(), checkNames_ok.mpr ⟨nodup, fun _ _ => List.not_mem_nil⟩, _,
      (addTypes_ok nodup fun d _ => by simp).mpr ⟨table, g₁, builds, rfl⟩, (), acyclic, b, ?_, rfl⟩
    rw [started]
    exact added

/-! ### Packets -/

/-- The types and references of a schema are those of another. -/
def SameTypes (s t : Schema) : Prop := t.types = s.types ∧ t.refs = s.refs

theorem SameTypes.trans {s t u : Schema} (first : SameTypes s t) (second : SameTypes t u) :
    SameTypes s u := ⟨second.1.trans first.1, second.2.trans first.2⟩

/-- Two schemas under construction have protocols that unfold to the same. -/
def Assembly.SameProtocols (target : String → Shape) (a b : Assembly) : Prop :=
  a.schema.SameProtocols target b.schema

theorem addPacket_kept {lookup : Lookup} {protocol : String} {flow : Flow} {a b : Assembly}
    {p : PacketSpec} (ran : a.addPacket lookup protocol flow p = .ok b) :
    SameTypes a.schema b.schema := by
  obtain ⟨⟨fields, a₁⟩, built, ran⟩ := bind_ok.mp ran
  obtain ⟨g, _, rfl⟩ := building_ok.mp built
  obtain ⟨⟨id, schema⟩, added, same⟩ := bind_ok.mp ran
  cases same
  have kept := Schema.addPacket_kept added
  exact kept

theorem addProtocols_kept {lookup : Lookup} {ds : List ProtocolDecl} {a b : Assembly}
    (ran : ds.foldlM (Assembly.addProtocol lookup) a = .ok b) : SameTypes a.schema b.schema := by
  refine foldlM_kept (P := fun c => SameTypes a.schema c.schema) (fun d _ c c' kept added => ?_)
    ⟨rfl, rfl⟩ ran
  obtain ⟨schema, first, ran⟩ := bind_ok.mp added
  have named : SameTypes a.schema schema := kept.trans (Schema.addProtocol_kept first)
  refine foldlM_kept (P := fun c => SameTypes a.schema c.schema) (fun block _ c c' kept ran => ?_)
    named ran
  exact foldlM_kept (P := fun c => SameTypes a.schema c.schema)
    (fun p _ c c' kept ran => kept.trans (addPacket_kept ran)) kept ran

/-! ### Ranks -/

theorem lookupIn_declared {known : Refs} {name : String} {x : Shape}
    (found : lookupIn names known name = .ok x) :
    (name, x) ∈ known ∨ name ∈ names ∧ x = .ref name := by
  rw [lookupIn] at found
  cases search : known.lookup name with
  | some s =>
    rw [search] at found
    cases found
    exact .inl (mem_of_lookup search)
  | none =>
    rw [search] at found
    simp only at found
    split at found
    · next member =>
      cases found
      exact .inr ⟨List.elem_iff.mp member, rfl⟩
    · cases found

/-- Whatever a declaration mentions is declared. -/
theorem BuildsTypes.declared : ∀ {ds : List TypeDecl} {known : Refs} {g g' : Nat} {table : Refs},
    BuildsTypes names ds known g table g' → (∀ entry ∈ known, entry.1 ∈ names) →
    (∀ d ∈ ds, d.name ∈ names) → ∀ d ∈ ds, ∀ m ∈ d.type.mentions, m ∈ names
  | [], _, _, _, _, _, _, _ => List.forall_mem_nil _
  | d :: ds, known, _, _, _, ⟨s, g₁, rest, ofType, ofRest, _⟩, inNames, own => by
    refine List.forall_mem_cons.mpr ⟨fun m mentioned => ?_, ?_⟩
    · obtain ⟨x, found⟩ := shape_found d.type ofType m mentioned
      rcases lookupIn_declared found with member | ⟨member, _⟩
      · exact inNames _ member
      · exact member
    · refine ofRest.declared ?_ fun e member => own e (List.mem_cons_of_mem _ member)
      exact List.forall_mem_cons.mpr ⟨own d (List.mem_cons_self ..), inNames⟩

/-- Each type is well formed up to its own rank. -/
theorem BuildsTypes.wellFormed {all : Refs} {rank : String → Nat} (keys : all.map (·.1) = names) :
    ∀ {ds : List TypeDecl} {known : Refs} {g g' : Nat} {table : Refs},
    BuildsTypes names ds known g table g' →
    (∀ entry ∈ known, entry ∈ all ∧
      ∃ inner, entry.2 = .alias entry.1 inner ∨ entry.2 = .exported entry.1 inner) →
    (∀ entry ∈ table, entry ∈ all) → (∀ d ∈ ds, d.HasIdents) →
    (∀ d ∈ ds, ∀ m ∈ d.type.mentions, rank m < rank d.name) →
    ∀ entry ∈ table, ∃ inner : Shape,
      (entry.2 = .alias entry.1 inner ∨ entry.2 = .exported entry.1 inner) ∧
        inner.WellFormed all rank (rank entry.1)
  | [], _, _, _, _, ⟨empty, _⟩, _, _, _, _ => by
    subst empty
    exact List.forall_mem_nil _
  | d :: ds, known, _, _, _, ⟨s, g₁, rest, ofType, ofRest, same⟩, old, inside, idents, lower => by
    subst same
    refine List.forall_mem_cons.mpr ⟨⟨s, d.wrap_form s, ?_⟩, ?_⟩
    · refine shape_wellFormed d.type ofType (idents d (List.mem_cons_self ..)).2 ?_
      intro m mentioned x found
      have below := lower d (List.mem_cons_self ..) m mentioned
      rcases lookupIn_declared found with member | ⟨member, rfl⟩
      · obtain ⟨inAll, inner, same⟩ := old _ member
        change x = .alias m inner ∨ x = .exported m inner at same
        rcases same with rfl | rfl
        · exact ⟨inAll, below⟩
        · exact ⟨inAll, below⟩
      · exact ⟨keys ▸ member, below⟩
    · refine ofRest.wellFormed keys ?_ (List.forall_mem_cons.mp inside).2
        (List.forall_mem_cons.mp idents).2 (List.forall_mem_cons.mp lower).2
      exact List.forall_mem_cons.mpr
        ⟨⟨(List.forall_mem_cons.mp inside).1, s, d.wrap_form s⟩, old⟩

theorem edge_of_mentions {ds : List TypeDecl} (nodup : (ds.map (·.name)).Nodup) {d : TypeDecl}
    (member : d ∈ ds) {m : String} (mentioned : m ∈ d.type.mentions) :
    (Mentions.ofDecls ds).Edge d.name m := by
  have entry : (d.name, d.type.mentions) ∈ Mentions.ofDecls ds := by
    refine List.mem_filter.mpr ⟨List.mem_map.mpr ⟨d, member, rfl⟩, ?_⟩
    cases same : d.type.mentions with
    | nil =>
      rw [same] at mentioned
      cases mentioned
    | cons => rfl
  have keys : ((Mentions.ofDecls ds).map (·.1)).Nodup := by
    refine (List.filter_sublist.map _).nodup ?_
    rw [List.map_map]
    exact nodup
  rw [Mentions.Edge, Mentions.of, lookup_of_mem keys entry]
  exact mentioned

theorem mentions_of_edge {ds : List TypeDecl} {name m : String}
    (edge : (Mentions.ofDecls ds).Edge name m) :
    ∃ d ∈ ds, d.name = name ∧ m ∈ d.type.mentions := by
  rw [Mentions.Edge, Mentions.of] at edge
  cases found : (Mentions.ofDecls ds).lookup name with
  | none =>
    rw [found] at edge
    cases edge
  | some ms =>
    rw [found] at edge
    obtain ⟨d, member, same⟩ := List.mem_map.mp (List.mem_filter.mp (mem_of_lookup found)).1
    cases same
    exact ⟨d, member, rfl, edge⟩

theorem exists_rank_of_check {ds : List TypeDecl} (nodup : (ds.map (·.name)).Nodup)
    (declared : ∀ d ∈ ds, ∀ m ∈ d.type.mentions, m ∈ ds.map (·.name))
    (checked : (Mentions.ofDecls ds).check = .ok ()) : ∃ rank : String → Nat,
      (∀ d ∈ ds, ∀ m ∈ d.type.mentions, rank m < rank d.name) ∧ ∀ d ∈ ds, rank d.name < ds.length := by
  obtain ⟨rank, lower, bounded⟩ := Mentions.exists_rank checked
    (by
      intro name member
      obtain ⟨entry, inside, rfl⟩ := List.mem_map.mp member
      obtain ⟨d, ofDecl, rfl⟩ := List.mem_map.mp (List.mem_filter.mp inside).1
      exact List.mem_map.mpr ⟨d, ofDecl, rfl⟩)
    (by
      intro name other edge
      obtain ⟨d, member, _, mentioned⟩ := mentions_of_edge edge
      exact declared d member other mentioned)
  refine ⟨rank, fun d member m mentioned => ?_, fun d member => ?_⟩
  · exact lower _ _ (edge_of_mentions nodup member mentioned)
  · have below := bounded d.name (List.mem_map.mpr ⟨d, member, rfl⟩)
    rw [List.length_map] at below
    exact below

/-- The types of a schema without circles are ordered. -/
theorem exists_ordered {ds : List TypeDecl} {table : Refs} (nodup : (ds.map (·.name)).Nodup)
    (idents : ∀ d ∈ ds, d.HasIdents) (builds : BuildsTypes (ds.map (·.name)) ds [] g table g')
    (checked : (Mentions.ofDecls ds).check = .ok ()) : ∃ rank, table.Ordered rank := by
  have keys := builds.keys
  have declared := builds.declared (List.forall_mem_nil _)
    fun d member => List.mem_map.mpr ⟨d, member, rfl⟩
  obtain ⟨rank, lower, bounded⟩ := exists_rank_of_check nodup declared checked
  refine ⟨rank, ?_⟩
  constructor
  case nodup =>
    rw [keys]
    exact nodup
  case idents =>
    intro entry member
    have named : entry.1 ∈ ds.map (·.name) := keys ▸ List.mem_map.mpr ⟨entry, member, rfl⟩
    obtain ⟨d, inside, same⟩ := List.mem_map.mp named
    exact same ▸ (idents d inside).1
  case shapes =>
    exact builds.wellFormed keys (List.forall_mem_nil _) (fun _ member => member) idents lower
  case ranks =>
    intro entry member
    have size : table.length = ds.length := by rw [← List.length_map (·.1), keys, List.length_map]
    have named : entry.1 ∈ ds.map (·.name) := keys ▸ List.mem_map.mpr ⟨entry, member, rfl⟩
    obtain ⟨d, inside, same⟩ := List.mem_map.mp named
    rw [size, ← same]
    exact bounded d inside

/-! ### Any order -/

/-- The lookup finds the names, and what it finds unfolds to the targets. -/
structure Lookup.Meets (target : String → Shape) (names : List String) (lookup : Lookup) : Prop where
  finds : ∀ name ∈ names, ∃ s, lookup name = .ok s ∧ s.unfoldWith target = target name ∧
    tagKind s = .i32
  only : ∀ name s, lookup name = .ok s → name ∈ names

/-- The entries unfold to the targets of their names. -/
def Refs.Solved (target : String → Shape) (table : Refs) : Prop :=
  ∀ entry ∈ table, entry.2.unfoldWith target = target entry.1 ∧ tagKind entry.2 = .i32

/-- The declaration can be built with a lookup that meets the targets, and gives its own target. -/
def TypeDecl.Meets (target : String → Shape) (names : List String) (d : TypeDecl) : Prop :=
  ∃ lookup g s g', Lookup.Meets target names lookup ∧ Builds (d.type.shape lookup) g s g' ∧
    (d.wrap s).unfoldWith target = target d.name

theorem unfold_solved {target : String → Shape} {table : Refs}
    (solved : ∀ entry ∈ table, entry.2.unfoldWith target = target entry.1) :
    table.map (fun (name, s) => (name, s.unfoldWith target)) =
      (table.map (·.1)).map fun name => (name, target name) := by
  rw [List.map_map]
  refine List.map_congr_left fun entry member => ?_
  exact congrArg (Prod.mk entry.1) (solved entry member)

section Meets

variable {target : String → Shape} {lookup lookup' : Lookup}

theorem Lookup.Meets.within (meets : Lookup.Meets target names lookup)
    (meets' : Lookup.Meets target names lookup') : lookup.Within target lookup' := by
  intro name s found
  obtain ⟨s₁, found₁, unfold, kind⟩ := meets.finds name (meets.only name s found)
  obtain ⟨s', found', unfold', kind'⟩ := meets'.finds name (meets.only name s found)
  rw [found] at found₁
  cases found₁
  exact ⟨s', found', unfold.trans unfold'.symm, kind.trans kind'.symm⟩

theorem meets_lookupIn {known : Refs} (inNames : ∀ entry ∈ known, entry.1 ∈ names)
    (solved : Refs.Solved target known) : Lookup.Meets target names (lookupIn names known) := by
  constructor
  case finds =>
    intro name member
    rw [lookupIn]
    cases search : known.lookup name with
    | some s => exact ⟨s, rfl, solved _ (mem_of_lookup search)⟩
    | none =>
      rw [if_pos (List.elem_iff.mpr member)]
      exact ⟨.ref name, rfl, rfl, rfl⟩
  case only =>
    intro name s found
    rcases lookupIn_declared found with member | ⟨member, _⟩
    · exact inNames _ member
    · exact member

/-- Declarations that have been built meet the targets that solve their table. -/
theorem BuildsTypes.meets : ∀ {ds : List TypeDecl} {known : Refs} {g g' : Nat} {table : Refs},
    BuildsTypes names ds known g table g' → (∀ entry ∈ known, entry.1 ∈ names) →
    (∀ d ∈ ds, d.name ∈ names) → Refs.Solved target known → Refs.Solved target table →
    ∀ d ∈ ds, d.Meets target names
  | [], _, _, _, _, _, _, _, _, _ => List.forall_mem_nil _
  | d :: ds, known, g, g', _, ⟨s, g₁, rest, ofType, ofRest, same⟩, inNames, own, old, solved => by
    subst same
    have first := (List.forall_mem_cons.mp solved).1
    refine List.forall_mem_cons.mpr ⟨?_, ?_⟩
    · exact ⟨_, g, s, g₁, meets_lookupIn inNames old, ofType, first.1⟩
    · refine ofRest.meets ?_ (List.forall_mem_cons.mp own).2 ?_ (List.forall_mem_cons.mp solved).2
      · exact List.forall_mem_cons.mpr ⟨(List.forall_mem_cons.mp own).1, inNames⟩
      · exact List.forall_mem_cons.mpr ⟨first, old⟩

/-- Declarations that meet their targets can be built in any order. -/
theorem buildsTypes_of_meets : ∀ {ds : List TypeDecl} (known : Refs) (g : Nat),
    (∀ d ∈ ds, d.Meets target names) → (∀ d ∈ ds, d.name ∈ names) →
    (∀ entry ∈ known, entry.1 ∈ names) → Refs.Solved target known →
    ∃ table g', BuildsTypes names ds known g table g' ∧ Refs.Solved target table
  | [], known, g, _, _, _, _ => ⟨[], g, ⟨rfl, rfl⟩, List.forall_mem_nil _⟩
  | d :: ds, known, g, meet, own, inNames, old => by
    obtain ⟨lookup, h, s, h', meets, ofType, toTarget⟩ := (List.forall_mem_cons.mp meet).1
    have within := meets.within (meets_lookupIn inNames old)
    obtain ⟨s', g₁, ofType', twins⟩ := shape_within within d.type ofType g
    have first : (d.wrap s').unfoldWith target = target d.name := by
      rw [d.unfold_wrap, ← twins.unfold, ← d.unfold_wrap, toTarget]
    have entry : (d.wrap s').unfoldWith target = target d.name ∧ tagKind (d.wrap s') = .i32 :=
      ⟨first, d.tagKind_wrap s'⟩
    obtain ⟨rest, g', ofRest, solved⟩ := buildsTypes_of_meets ((d.name, d.wrap s') :: known)
      g₁ (List.forall_mem_cons.mp meet).2 (List.forall_mem_cons.mp own).2
      (List.forall_mem_cons.mpr ⟨(List.forall_mem_cons.mp own).1, inNames⟩)
      (List.forall_mem_cons.mpr ⟨entry, old⟩)
    exact ⟨_, g', ⟨s', g₁, rest, ofType', ofRest, rfl⟩, List.forall_mem_cons.mpr ⟨entry, solved⟩⟩

theorem addPacket_meets (meets : Lookup.Meets target names lookup)
    (meets' : Lookup.Meets target names lookup') {protocol : String} {flow : Flow}
    {a a' b : Assembly} {p : PacketSpec} (same : a.schema.SameProtocols target a'.schema)
    (ran : a.addPacket lookup protocol flow p = .ok b) :
    ∃ b', a'.addPacket lookup' protocol flow p = .ok b' ∧
      b.schema.SameProtocols target b'.schema := by
  obtain ⟨⟨fields, a₁⟩, built, ran⟩ := bind_ok.mp ran
  obtain ⟨g, builds, rfl⟩ := building_ok.mp built
  obtain ⟨⟨id, schema⟩, added, isB⟩ := bind_ok.mp ran
  cases isB
  obtain ⟨fields', g', builds', sameFields⟩ :=
    shapeFields_within (meets.within meets') p.fields builds a'.schema.nextGroup
  have samePacket : ({ name := p.name, fields, doc := docOf p.docs } : Packet).unfoldWith target =
      ({ name := p.name, fields := fields', doc := docOf p.docs } : Packet).unfoldWith target := by
    rw [Packet.unfoldWith, Packet.unfoldWith, sameFields]
  have samer : Schema.SameProtocols target { a.schema with nextGroup := g }
      { a'.schema with nextGroup := g' } := same
  obtain ⟨schema', added', sameSchema⟩ := samer.addPacket samePacket added
  refine ⟨{ a' with schema := schema' }, ?_, sameSchema⟩
  refine bind_ok.mpr ⟨(fields', _), building_ok.mpr ⟨g', builds', rfl⟩, ?_⟩
  exact bind_ok.mpr ⟨(id, schema'), added', rfl⟩

/-- Whether protocols can be added, and what they are, depends on what the types unfold to. -/
theorem addProtocols_meets (meets : Lookup.Meets target names lookup)
    (meets' : Lookup.Meets target names lookup') {ds : List ProtocolDecl} {a a' b : Assembly}
    (same : a.schema.SameProtocols target a'.schema)
    (ran : ds.foldlM (Assembly.addProtocol lookup) a = .ok b) :
    ∃ b', ds.foldlM (Assembly.addProtocol lookup') a' = .ok b' ∧
      b.schema.SameProtocols target b'.schema := by
  have block (protocol : String) (block : FlowSpec) (c c₁ c' : Assembly)
      (same : Assembly.SameProtocols target c c')
      (ran : block.packets.foldlM (Assembly.addPacket lookup protocol block.flow) c = .ok c₁) :
      ∃ c₁', block.packets.foldlM (Assembly.addPacket lookup' protocol block.flow) c' = .ok c₁' ∧
        Assembly.SameProtocols target c₁ c₁' :=
    foldlM_related (R := Assembly.SameProtocols target)
      (fun p _ _ _ _ same ran => addPacket_meets meets meets' same ran) same ran
  refine foldlM_related (R := Assembly.SameProtocols target) (fun d _ c c₁ c' same ran => ?_) same
    ran
  obtain ⟨schema, first, others⟩ := bind_ok.mp ran
  obtain ⟨schema', first', sameSchema⟩ := Schema.SameProtocols.addProtocol same first
  have related : Assembly.SameProtocols target { c with schema } { c' with schema := schema' } :=
    sameSchema
  obtain ⟨c₁', others', related'⟩ := foldlM_related
    (fun b _ _ _ _ same ran => block d.name b _ _ _ same ran) related others
  exact ⟨c₁', bind_ok.mpr ⟨schema', first', others'⟩, related'⟩

end Meets

/-! ### Targets of ordered types -/

section Labels

variable {types : Refs} {rank : String → Nat}

theorem labels_of_slots : ∀ {fields : List Field},
    (∀ f ∈ fields, ∃ group index kind, f.shape = .slot group index kind) →
    Shape.labelsOfFields fields = []
  | [], _ => rfl
  | ⟨_, shape, _⟩ :: rest, slots => by
    obtain ⟨_, _, _, same⟩ := slots _ (List.mem_cons_self ..)
    change shape = _ at same
    subst same
    rw [Shape.labelsOfFields, labels_of_slots fun f member => slots f (List.mem_cons_of_mem _ member)]
    rfl

mutual

/-- The labels in a well-formed shape have ranks below its bound. -/
theorem labels_lower (ordered : types.Ordered rank) : ∀ (s : Shape) {bound : Nat},
    s.WellFormed types rank bound → ∀ label ∈ s.labels, rank label < bound
  | .prim _, _, _ | .literal _ _, _, _ | .enum _ _, _, _ => List.forall_mem_nil _
  | .optional value presence, bound, ⟨same, wf⟩ => by
    subst same
    exact List.forall_mem_append.mpr ⟨labels_lower ordered value wf, List.forall_mem_nil _⟩
  | .list item _, bound, wf => by
    rw [Shape.labels]
    exact labels_lower ordered item wf
  | .map key value _, bound, ⟨ofKey, ofValue⟩ => List.forall_mem_append.mpr
    ⟨labels_lower ordered key ofKey, labels_lower ordered value ofValue⟩
  | .struct fields, bound, wf => labelsOfFields_lower ordered fields wf
  | .merged parts, bound, wf => labelsOfParts_lower ordered parts wf
  | .union _ tag variants _, bound, ⟨ofTag, _, ofVariants⟩ => List.forall_mem_append.mpr
    ⟨labels_lower ordered tag ofTag, labelsOfVariants_lower ordered variants ofVariants⟩
  | .packed backing widths fields group, bound, ⟨_, _, slots⟩ => by
    have none : Shape.labelsOfFields fields = [] := labels_of_slots fun f member => by
      obtain ⟨index, width, _, same⟩ := slots f member
      exact ⟨_, _, _, same⟩
    rw [Shape.labels, none]
    exact List.forall_mem_nil _
  | .flags backing masks fields group, bound, ⟨_, slots⟩ => by
    have none : Shape.labelsOfFields fields = [] := labels_of_slots fun f member => by
      obtain ⟨index, mask, _, same⟩ := slots f member
      exact ⟨_, _, _, same⟩
    rw [Shape.labels, none]
    exact List.forall_mem_nil _
  | .alias name inner, bound, ⟨member, below⟩ => fun label inside =>
    (labels_lower ordered inner (ordered.inner_alias member) label inside).trans below
  | .exported name inner, bound, ⟨member, below⟩ => fun label inside =>
    (labels_lower ordered inner (ordered.inner_exported member) label inside).trans below
  | .ref label, bound, ⟨_, below⟩ => fun other member => List.mem_singleton.mp member ▸ below

theorem labelsOfFields_lower (ordered : types.Ordered rank) : ∀ (fields : List Field) {bound : Nat},
    Shape.WellFormedFields types rank bound fields →
    ∀ label ∈ Shape.labelsOfFields fields, rank label < bound
  | [], _, _ => List.forall_mem_nil _
  | ⟨_, shape, _⟩ :: rest, _, ⟨wf, wf'⟩ => List.forall_mem_append.mpr
    ⟨labels_lower ordered shape wf, labelsOfFields_lower ordered rest wf'⟩

theorem labelsOfParts_lower (ordered : types.Ordered rank) : ∀ (parts : List Shape) {bound : Nat},
    Shape.WellFormedParts types rank bound parts →
    ∀ label ∈ Shape.labelsOfParts parts, rank label < bound
  | [], _, _ => List.forall_mem_nil _
  | s :: rest, _, ⟨wf, wf'⟩ => List.forall_mem_append.mpr
    ⟨labels_lower ordered s wf, labelsOfParts_lower ordered rest wf'⟩

theorem labelsOfVariants_lower (ordered : types.Ordered rank) :
    ∀ (variants : List (String × Shape)) {bound : Nat},
    Shape.WellFormedVariants types rank bound variants →
    ∀ label ∈ Shape.labelsOfVariants variants, rank label < bound
  | [], _, _ => List.forall_mem_nil _
  | (_, s) :: rest, _, ⟨_, wf, wf'⟩ => List.forall_mem_append.mpr
    ⟨labels_lower ordered s wf, labelsOfVariants_lower ordered rest wf'⟩

end

theorem ranked_of_ordered (ordered : types.Ordered rank) : types.Ranked rank := by
  constructor
  case lower =>
    intro label target found other inside
    obtain ⟨inner, form, wf⟩ := ordered.shapes _ (mem_of_lookup found)
    change target = .alias label inner ∨ target = .exported label inner at form
    rcases form with rfl | rfl
    · exact labels_lower ordered inner wf other inside
    · exact labels_lower ordered inner wf other inside
  case bounded => exact fun label target found => ordered.ranks _ (mem_of_lookup found)

theorem solved_of_ordered (ordered : types.Ordered rank) :
    Refs.Solved (Shape.targetIn types) types := by
  intro entry member
  have found : types.lookup entry.1 = some entry.2 := lookup_of_mem ordered.nodup member
  refine ⟨(Shape.targetIn_eq (ranked_of_ordered ordered) found).symm, ?_⟩
  obtain ⟨inner, form, _⟩ := ordered.shapes _ member
  rcases form with same | same <;> rw [same] <;> rfl

end Labels

end WireSchema.Source
