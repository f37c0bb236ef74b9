import WireSchema.Print.Module
import WireSchema.Proofs.Elision.Hygiene
import WireSchema.Proofs.Generation.Units
import WireSchema.Proofs.Session.Growth

/-!
# Imports of flows

The code of a flow refers to declared types, to the functions of codecs and to the host. A reference
may stand at any depth: in an expression below others, in a block within blocks. The imports of a
flow are the declared names among its references, each once. They are printed by their names alone;
a function of a codec whose name is also that of a declared type is printed as that type.

## Main results

* `imports_are_exact`: a declared name is imported exactly if the packets of the flow refer to it.
* `printed_imports`: the imported types are printed as code refers to them, and so is the function
  of a codec, unless a type is declared under its name.
-/

namespace WireSchema.Ir

/-- What generated code refers to outside its own body. -/
inductive Reference where
  | type (name : String)
  /-- A function that reads or writes with a codec. -/
  | function (name : String)
  /-- A type or a function of the host. -/
  | host (path : String)

def Reference.name : Reference → String
  | type name | function name | host name => name

/-! ### References at any depth -/

/-- The type consists of the reference among others. -/
def TypeExpr.RefersTo (r : Reference) : TypeExpr → Prop
  | .prim _ => False
  | .named n => r = .type n
  | .external n => r = .host n
  | .option t | .list t => t.RefersTo r
  | .map k v => k.RefersTo r ∨ v.RefersTo r

/-- The expression refers to something by itself, apart from its parts. -/
def Expr.RefersItself (r : Reference) : Expr → Prop
  | .struct ty _ | .variant ty _ _ | .enumValue ty _ | .fromId ty _ | .toId ty _ => r = .type ty
  | .callDecode codec => r = .function (readerName codec)
  | .call path _ _ => r = .host path
  | _ => False

/-- The second expression is the first one or stands at some depth in it. -/
def Expr.Contains : Expr → Expr → Prop := Relation.ReflTransGen fun e part => part ∈ e.children

def Expr.RefersTo (r : Reference) (e : Expr) : Prop := ∃ n, e.Contains n ∧ n.RefersItself r

def Pattern.RefersTo (r : Reference) : Pattern → Prop
  | .enum ty _ | .variant ty _ _ => r = .type ty
  | .lit _ => False

/-- The statement refers to something by itself, apart from its expressions and blocks. -/
def Stmt.RefersItself (r : Reference) : Stmt → Prop
  | .writeCodec codec _ => r = .function (writerName codec)
  | .select _ arms fallback => (∃ arm ∈ arms, arm.1.RefersTo r) ∨
      ∃ ty, fallback = some (.unmatchedVariant ty) ∧ r = .type ty
  | _ => False

/-- The second statement is the first one or stands at some depth in its blocks. -/
def Stmt.Contains : Stmt → Stmt → Prop := Relation.ReflTransGen fun s t => t ∈ s.blocks.flatten

/-- A statement of the body, at some depth, refers to something by itself or in an expression. -/
def Stmt.BodyRefersTo (r : Reference) (stmts : List Stmt) : Prop :=
  ∃ s ∈ stmts, ∃ t, s.Contains t ∧ ((∃ e ∈ t.exprs, e.RefersTo r) ∨ t.RefersItself r)

/-! ### Symbols are references -/

/-- What is listed before its parts, and these before theirs, is all that it contains. -/
theorem mem_iff_contains {α : Type} {parts listed : α → List α}
    (unfold : ∀ a, listed a = a :: (parts a).flatMap listed) {a b : α} :
    b ∈ listed a ↔ Relation.ReflTransGen (fun a part => part ∈ parts a) a b := by
  constructor
  · intro member
    induction size : (listed a).length using Nat.strongRecOn generalizing a with
    | ind n ih =>
      subst size
      rw [unfold] at member
      rcases List.mem_cons.mp member with rfl | below
      · exact .refl
      · obtain ⟨part, inside, member⟩ := List.mem_flatMap.mp below
        have smaller : (listed part).length < (listed a).length := by
          rw [unfold a, List.length_cons, List.flatMap_def]
          exact Nat.lt_succ_of_le
            (List.sublist_flatten_of_mem (List.mem_map_of_mem inside)).length_le
        exact .head inside (ih _ smaller member rfl)
  · intro contains
    induction contains using Relation.ReflTransGen.head_induction_on with
    | refl =>
      rw [unfold]
      exact List.mem_cons_self
    | head inside _ ih =>
      rw [unfold]
      exact List.mem_cons_of_mem _ (List.mem_flatMap.mpr ⟨_, inside, ih⟩)

/-- What the symbols of a list name, one of its elements refers to. -/
theorem mem_flatMap_symbols {α : Type} {symbols : α → List String} {refers : α → Reference → Prop}
    {name : String} (each : ∀ a, name ∈ symbols a ↔ ∃ r, refers a r ∧ r.name = name)
    (items : List α) :
    name ∈ items.flatMap symbols ↔ ∃ r, (∃ a ∈ items, refers a r) ∧ r.name = name := by
  simp only [List.mem_flatMap, each]
  constructor
  · rintro ⟨a, among, r, refers, named⟩
    exact ⟨r, ⟨a, among, refers⟩, named⟩
  · rintro ⟨r, ⟨a, among, refers⟩, named⟩
    exact ⟨a, among, r, refers, named⟩

theorem TypeExpr.mem_symbols (t : TypeExpr) (name : String) :
    name ∈ t.symbols ↔ ∃ r, t.RefersTo r ∧ r.name = name := by
  induction t with
  | prim => simp [symbols, RefersTo]
  | named | external => simp [symbols, RefersTo, Reference.name, eq_comm]
  | option t ih | list t ih => exact ih
  | map k v key value => simp only [symbols, RefersTo, List.mem_append, key, value, or_and_right,
      exists_or]

theorem Expr.symbol?_eq_some (e : Expr) (name : String) :
    e.symbol? = some name ↔ ∃ r, e.RefersItself r ∧ r.name = name := by
  cases e <;> simp [symbol?, RefersItself, Reference.name]

theorem Expr.mem_symbols (e : Expr) (name : String) :
    name ∈ e.symbols ↔ ∃ r, e.RefersTo r ∧ r.name = name := by
  simp only [symbols, List.mem_filterMap, symbol?_eq_some, mem_iff_contains nodes_eq]
  constructor
  · rintro ⟨n, contains, r, refers, named⟩
    exact ⟨r, ⟨n, contains, refers⟩, named⟩
  · rintro ⟨r, ⟨n, contains, refers⟩, named⟩
    exact ⟨n, contains, r, refers, named⟩

theorem Pattern.symbol?_eq_some (p : Pattern) (name : String) :
    p.symbol? = some name ↔ ∃ r, p.RefersTo r ∧ r.name = name := by
  cases p <;> simp [symbol?, RefersTo, Reference.name]

theorem Stmt.mem_ownSymbols (s : Stmt) (name : String) :
    name ∈ s.ownSymbols ↔ ∃ r, s.RefersItself r ∧ r.name = name := by
  cases s with
  | writeCodec codec e => simp [ownSymbols, RefersItself, Reference.name, eq_comm]
  | select e arms fallback =>
    have ofArms : name ∈ arms.filterMap (·.1.symbol?) ↔
        ∃ r, (∃ arm ∈ arms, arm.1.RefersTo r) ∧ r.name = name := by
      simp only [List.mem_filterMap, Pattern.symbol?_eq_some]
      constructor
      · rintro ⟨arm, among, r, refers, named⟩
        exact ⟨r, ⟨arm, among, refers⟩, named⟩
      · rintro ⟨r, ⟨arm, among, refers⟩, named⟩
        exact ⟨arm, among, r, refers, named⟩
    simp only [ownSymbols, RefersItself, List.mem_append, ofArms, or_and_right, exists_or]
    refine or_congr_right ?_
    cases fallback with
    | none => simp
    | some failure => cases failure <;> simp [Reference.name, eq_comm]
  | _ => simp [ownSymbols, RefersItself]

theorem Stmt.flattenBlock_eq (stmts : List Stmt) : flattenBlock stmts = stmts.flatMap flatten := by
  induction stmts with
  | nil => rfl
  | cons s rest ih => rw [flattenBlock, ih, List.flatMap_cons]

theorem Stmt.mem_flattenBlock {stmts : List Stmt} {t : Stmt} :
    t ∈ flattenBlock stmts ↔ ∃ s ∈ stmts, s.Contains t := by
  have unfold (s : Stmt) : s.flatten = s :: s.blocks.flatten.flatMap flatten := by
    rw [flatten_eq, List.flatten_eq_flatMap, List.flatMap_assoc]
    exact congrArg (s :: ·) (List.flatMap_congr fun b _ => flattenBlock_eq b)
  rw [flattenBlock_eq, List.mem_flatMap]
  exact exists_congr fun s => and_congr_right fun _ => mem_iff_contains unfold

theorem Stmt.mem_symbols (stmts : List Stmt) (name : String) :
    name ∈ symbols stmts ↔ ∃ r, BodyRefersTo r stmts ∧ r.name = name := by
  have each (t : Stmt) : name ∈ t.exprs.flatMap Expr.symbols ++ t.ownSymbols ↔
      ∃ r, ((∃ e ∈ t.exprs, e.RefersTo r) ∨ t.RefersItself r) ∧ r.name = name := by
    rw [List.mem_append, mem_flatMap_symbols (fun e => e.mem_symbols name), mem_ownSymbols]
    simp only [or_and_right, exists_or]
  rw [symbols, mem_flatMap_symbols each]
  refine exists_congr fun r => and_congr_left fun _ => ?_
  simp only [mem_flattenBlock]
  constructor
  · rintro ⟨t, ⟨s, among, contains⟩, refers⟩
    exact ⟨s, among, t, contains, refers⟩
  · rintro ⟨s, among, t, contains, refers⟩
    exact ⟨t, ⟨s, among, contains⟩, refers⟩

theorem nodup_distinct (symbols : List String) : (distinct symbols).Nodup := by
  rw [distinct]
  induction size : symbols.length using Nat.strongRecOn generalizing symbols with
  | ind n ih =>
    cases symbols with
    | nil => exact List.nodup_nil
    | cons first rest =>
      rw [List.eraseDups_cons, List.nodup_cons]
      refine ⟨by simp, ih _ ?_ _ rfl⟩
      rw [← size]
      exact Nat.lt_succ_of_le (List.length_filter_le _ _)

/-! ### Functions of codecs -/

theorem underscore_writerName (base : String) : '_' ∈ (writerName base).toList := by
  rw [writerName, String.toList_append, List.mem_append]
  exact .inl (by decide)

theorem TypeExpr.not_refersTo_function (t : TypeExpr) (name : String) :
    ¬ t.RefersTo (.function name) := by
  induction t with
  | prim => exact id
  | named | external => exact nofun
  | option t ih | list t ih => exact ih
  | map k v key value => exact fun refers => refers.elim key value

theorem Expr.underscore_function {e : Expr} {name : String}
    (refers : e.RefersTo (.function name)) : '_' ∈ name.toList := by
  obtain ⟨n, -, itself⟩ := refers
  cases n with
  | callDecode codec =>
    cases itself
    exact underscore_readerName codec
  | _ => cases itself

theorem Stmt.underscore_function {stmts : List Stmt} {name : String}
    (refers : Stmt.BodyRefersTo (.function name) stmts) : '_' ∈ name.toList := by
  obtain ⟨s, -, t, -, ⟨e, -, refers⟩ | itself⟩ := refers
  · exact Expr.underscore_function refers
  · cases t with
    | writeCodec codec e =>
      cases itself
      exact underscore_writerName codec
    | select e arms fallback =>
      rcases itself with ⟨⟨pattern, body⟩, -, refers⟩ | ⟨ty, -, same⟩
      · cases pattern <;> cases refers
      · cases same
    | _ => cases itself

end WireSchema.Ir

namespace WireSchema

open Ir Print

namespace Generated

/-- The packet refers to something in the type of a field, or in its decoder or encoder. -/
def Packet.RefersTo (r : Reference) (p : Packet) : Prop :=
  (∃ f ∈ p.fields, f.type.RefersTo r) ∨ Stmt.BodyRefersTo r p.decode.stmts ∨
    p.decode.result.RefersTo r ∨ Stmt.BodyRefersTo r p.encode

/-- A packet of the flow refers to something. -/
def FlowUnit.RefersTo (r : Reference) (f : FlowUnit) : Prop := ∃ p ∈ f.packets, p.RefersTo r

/-- The name is that of a declared type or of a function of a codec. -/
def Exposes (g : Generated) (name : String) : Prop :=
  name ∈ g.types.flatMap Generate.declaredNames

end Generated

theorem Generate.mem_packetSymbols (packets : List Generated.Packet) (name : String) :
    name ∈ packetSymbols packets ↔ ∃ r, (∃ p ∈ packets, p.RefersTo r) ∧ r.name = name := by
  rw [packetSymbols, distinct, List.mem_eraseDups]
  refine mem_flatMap_symbols (fun p => ?_) packets
  have fields := mem_flatMap_symbols (fun f : FieldDecl => f.type.mem_symbols name) p.fields
  simp only [List.mem_append, fields, Block.symbols, Stmt.mem_symbols, Expr.mem_symbols,
    Generated.Packet.RefersTo, or_and_right, exists_or, or_assoc]

variable {hooks : Lowering.Hooks} {s : Schema} {g : Generated}

/-- Flows of generated code come with the imports of their packets. -/
theorem imports_of_generate (ran : s.generate hooks = .ok g) {p : Generated.Protocol}
    (among : p ∈ g.protocols) {f : Generated.FlowUnit} (member : f ∈ p.flows) :
    f.shared = (Generate.packetSymbols f.packets).filter
      (g.types.flatMap Generate.declaredNames).contains := by
  -- The imports are added when all packets are made, with all declarations known.
  obtain ⟨protocols, τ, -, -, -, packed⟩ := generate_ok ran
  rw [packed] at among
  obtain ⟨q, -, rfl⟩ := List.mem_map.mp among
  obtain ⟨unit, -, rfl⟩ := List.mem_map.mp member
  rfl

/-- The imports of a flow are the declared names that its packets refer to, each once. -/
theorem imports_are_exact (ran : s.generate hooks = .ok g) {p : Generated.Protocol}
    (among : p ∈ g.protocols) {f : Generated.FlowUnit} (member : f ∈ p.flows) :
    f.shared.Nodup ∧
      ∀ name, name ∈ f.shared ↔ g.Exposes name ∧ ∃ r, f.RefersTo r ∧ r.name = name := by
  rw [imports_of_generate ran among member]
  constructor
  · exact (nodup_distinct _).filter _
  · intro name
    rw [List.mem_filter, List.contains_iff_mem, Generate.mem_packetSymbols, and_comm]
    rfl

/-! ### Printed imports -/

/-- The functions that packets refer to have an underscore in their names, unlike types. -/
theorem Generated.FlowUnit.underscore_function {f : Generated.FlowUnit} {name : String}
    (refers : f.RefersTo (.function name)) : '_' ∈ name.toList := by
  obtain ⟨p, -, ⟨field, -, refers⟩ | refers | refers | refers⟩ := refers
  · exact (field.type.not_refersTo_function name refers).elim
  · exact Stmt.underscore_function refers
  · exact Expr.underscore_function refers
  · exact Stmt.underscore_function refers

/-- A declared type makes its name available. -/
theorem Generated.exposes_of_decl? {name : String} (declared : (g.decl? name).isSome) :
    g.Exposes name := by
  obtain ⟨d, found⟩ := Option.isSome_iff_exists.mp declared
  have named := List.find?_some found
  refine List.mem_flatMap.mpr ⟨d, List.mem_of_find?_eq_some found, ?_⟩
  cases d with
  | codec c => cases named
  | _ =>
    rw [← eq_of_beq named]
    exact List.mem_singleton_self _

/-- A declared type that packets refer to is imported under the name that stands in their code. A
function of a codec is imported under its name exactly if no type is declared under that name too;
otherwise the import is that of the type, and the function is missing. -/
theorem printed_imports (ran : s.generate hooks = .ok g) {p : Generated.Protocol}
    (among : p ∈ g.protocols) {f : Generated.FlowUnit} (member : f ∈ p.flows) :
    (∀ name, f.RefersTo (.type name) → (g.decl? name).isSome →
      Naming.typeName name ∈ f.shared.map (importedName g)) ∧
    ∀ name, f.RefersTo (.function name) → g.Exposes name →
      (name ∈ f.shared.map (importedName g) ↔ g.decl? name = none) := by
  have imported := (imports_are_exact ran among member).2
  constructor
  · intro name refers declared
    refine List.mem_map.mpr ⟨name, ?_, if_pos declared⟩
    exact (imported name).mpr ⟨Generated.exposes_of_decl? declared, _, refers, rfl⟩
  · intro name refers declares
    constructor
    · intro printed
      obtain ⟨other, -, same⟩ := List.mem_map.mp printed
      unfold importedName at same
      split at same
      -- No type is printed with an underscore, so the import is that of the function itself.
      case isTrue =>
        have score := Generated.FlowUnit.underscore_function refers
        rw [← same] at score
        exact (Naming.underscore_typeName other score).elim
      case isFalse undeclared =>
        rw [← same]
        simpa using undeclared
    · intro undeclared
      refine List.mem_map.mpr ⟨name, (imported name).mpr ⟨declares, _, refers, rfl⟩, ?_⟩
      rw [importedName, undeclared]
      rfl

end WireSchema
