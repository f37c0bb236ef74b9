import WireSchema.Ir.Elision

/-!
# Code up to the names in it

Two runs of a generator may call the same enumeration by different names. Renaming gives the
enumerations and the codecs of a piece of code other names and drops the names of the other types,
which only a reader of the code cares about. Elision looks at none of these names, so it commutes
with renaming.
-/

namespace WireSchema.Ir

/-- New names for enumerations and codecs. -/
structure Renaming where
  enum : String → String
  codec : String → String

variable (ρ : Renaming)

namespace Expr

mutual

/-- The expression under new names. -/
def rename : Expr → Expr
  | .lit l => .lit l
  | .var x => .var x
  | .deref e => .deref (rename e)
  | .borrow e => .borrow (rename e)
  | .read p => .read p
  | .field e name => .field (rename e) name
  | .struct _ fields => .struct "" (renameFields fields)
  | .variant _ name payload => .variant "" name (renameOption payload)
  | .enumValue _ name => .enumValue "" name
  | .fromId type e => .fromId (ρ.enum type) (rename e)
  | .toId type e => .toId (ρ.enum type) (rename e)
  | .binary op a b => .binary op (rename a) (rename b)
  | .cast e kind => .cast (rename e) kind
  | .cond c t o => .cond (rename c) (rename t) (rename o)
  | .present e => .present (rename e)
  | .absent => .absent
  | .isPresent e => .isPresent (rename e)
  | .len e => .len (rename e)
  | .newList => .newList
  | .newMap => .newMap
  | .pair a b => .pair (rename a) (rename b)
  | .callDecode codec => .callDecode (ρ.codec codec)
  | .call path args fallible => .call path (renameList args) fallible

def renameOption : Option Expr → Option Expr
  | none => none
  | some e => some (rename e)

def renameList : List Expr → List Expr
  | [] => []
  | e :: rest => rename e :: renameList rest

def renameFields : List (String × Expr) → List (String × Expr)
  | [] => []
  | (name, e) :: rest => (name, rename e) :: renameFields rest

end

variable {ρ}

/-! ### What elision looks at -/

mutual

theorem nodes_rename : ∀ e : Expr, (e.rename ρ).nodes = e.nodes.map (rename ρ)
  | .lit _ | .var _ | .read _ | .enumValue _ _ | .absent | .newList | .newMap | .callDecode _ => rfl
  | .deref e | .borrow e | .field e _ | .cast e _ | .present e | .isPresent e | .len e => by
    simp only [rename, nodes, List.map_cons, nodes_rename e]
  | .fromId _ e | .toId _ e => by simp only [rename, nodes, List.map_cons, nodes_rename e]
  | .struct _ fields => by simp only [rename, nodes, List.map_cons, nodesFields_rename fields]
  | .variant _ _ payload => by simp only [rename, nodes, List.map_cons, nodesOption_rename payload]
  | .binary _ a b | .pair a b => by
    simp only [rename, nodes, List.map_cons, List.map_append, nodes_rename a, nodes_rename b]
  | .cond c t o => by
    simp only [rename, nodes, List.map_cons, List.map_append, nodes_rename c, nodes_rename t,
      nodes_rename o]
  | .call _ args _ => by simp only [rename, nodes, List.map_cons, nodesList_rename args]

theorem nodesOption_rename : ∀ e : Option Expr,
    nodesOption (renameOption ρ e) = (nodesOption e).map (rename ρ)
  | none => rfl
  | some e => nodes_rename e

theorem nodesList_rename : ∀ es : List Expr,
    nodesList (renameList ρ es) = (nodesList es).map (rename ρ)
  | [] => rfl
  | e :: rest => by
    simp only [renameList, nodesList, List.map_append, nodes_rename e, nodesList_rename rest]

theorem nodesFields_rename : ∀ fields : List (String × Expr),
    nodesFields (renameFields ρ fields) = (nodesFields fields).map (rename ρ)
  | [] => rfl
  | (_, e) :: rest => by
    simp only [renameFields, nodesFields, List.map_append, nodes_rename e, nodesFields_rename rest]

end

theorem isEffect_rename (e : Expr) : (e.rename ρ).isEffect = e.isEffect := by
  cases e <;> rfl

theorem localId?_rename (e : Expr) : (e.rename ρ).localId? = e.localId? := by
  cases e <;> rfl

@[simp]
theorem hasEffect_rename (e : Expr) : (e.rename ρ).hasEffect = e.hasEffect := by
  have same : isEffect ∘ rename ρ = isEffect := funext isEffect_rename
  rw [hasEffect, nodes_rename, List.any_map, same, hasEffect]

@[simp]
theorem locals_rename (e : Expr) : (e.rename ρ).locals = e.locals := by
  have same : localId? ∘ rename ρ = localId? := funext localId?_rename
  rw [locals, nodes_rename, List.filterMap_map, same, locals]

@[simp]
theorem mentions_rename (e : Expr) (x : Nat) : (e.rename ρ).mentions x = e.mentions x := by
  rw [mentions, locals_rename, mentions]

mutual

theorem search_rename (x : Nat) : ∀ (e : Expr) (seen : Bool),
    (e.rename ρ).search x seen = e.search x seen
  | .lit _, _ | .var _, _ | .read _, _ | .enumValue _ _, _ | .absent, _ | .newList, _ => rfl
  | .newMap, _ | .callDecode _, _ => rfl
  | .deref e, seen | .borrow e, seen | .field e _, seen | .cast e _, seen => search_rename x e seen
  | .present e, seen | .isPresent e, seen | .len e, seen | .toId _ e, seen => search_rename x e seen
  | .fromId _ e, seen => by simp only [rename, search, search_rename x e]
  | .struct _ fields, seen => searchFields_rename x fields seen
  | .variant _ _ payload, seen => searchOption_rename x payload seen
  | .binary _ a b, seen | .pair a b, seen => by
    simp only [rename, search, search_rename x a, search_rename x b]
  | .cond c t o, seen => by
    simp only [rename, search, search_rename x c, mentions_rename, hasEffect_rename]
  | .call _ args _, seen => by simp only [rename, search, searchList_rename x args]

theorem searchOption_rename (x : Nat) : ∀ (e : Option Expr) (seen : Bool),
    searchOption x seen (renameOption ρ e) = searchOption x seen e
  | none, _ => rfl
  | some e, seen => search_rename x e seen

theorem searchList_rename (x : Nat) : ∀ (es : List Expr) (seen : Bool),
    searchList x seen (renameList ρ es) = searchList x seen es
  | [], _ => rfl
  | e :: rest, seen => by
    simp only [renameList, searchList, search_rename x e, searchList_rename x rest]

theorem searchFields_rename (x : Nat) : ∀ (fields : List (String × Expr)) (seen : Bool),
    searchFields x seen (renameFields ρ fields) = searchFields x seen fields
  | [], _ => rfl
  | (_, e) :: rest, seen => by
    simp only [renameFields, searchFields, search_rename x e, searchFields_rename x rest]

end

theorem effectPrecedes_rename (e : Expr) (x : Nat) :
    (e.rename ρ).effectPrecedes x = e.effectPrecedes x := by
  rw [effectPrecedes, search_rename, effectPrecedes]

/-! ### Substitution -/

/-- The replacement under new names. -/
def Replacement.rename (r : Replacement) (ρ : Renaming) : Replacement :=
  ⟨r.binding, r.image.rename ρ⟩

variable (r : Replacement)

mutual

theorem substFirst_rename : ∀ e : Expr,
    (e.rename ρ).substFirst (r.rename ρ) = (e.substFirst r).map (Expr.rename ρ)
  | .var y => by
    simp only [rename, substFirst, Replacement.rename]
    split <;> rfl
  | .lit _ | .read _ | .enumValue _ _ | .absent | .newList | .newMap | .callDecode _ => rfl
  | .deref e | .borrow e | .field e _ | .cast e _ | .present e | .isPresent e | .len e => by
    simp only [rename, substFirst, substFirst_rename e, Option.map_map]
    rfl
  | .fromId _ e | .toId _ e => by
    simp only [rename, substFirst, substFirst_rename e, Option.map_map]
    rfl
  | .struct _ fields => by
    simp only [rename, substFirst, substFirstFields_rename fields, Option.map_map]
    rfl
  | .variant _ _ payload => by
    simp only [rename, substFirst, substFirstOption_rename payload, Option.map_map]
    rfl
  | .binary _ a b => by
    simp only [rename, substFirst, substFirst_rename a, substFirst_rename b]
    cases a.substFirst r with
    | some found => rfl
    | none => cases b.substFirst r <;> rfl
  | .pair a b => by
    simp only [rename, substFirst, substFirst_rename a, substFirst_rename b]
    cases a.substFirst r with
    | some found => rfl
    | none => cases b.substFirst r <;> rfl
  | .cond c t o => by
    simp only [rename, substFirst, substFirst_rename c, substFirst_rename t, substFirst_rename o]
    cases c.substFirst r with
    | some found => rfl
    | none =>
      cases t.substFirst r with
      | some found => rfl
      | none => cases o.substFirst r <;> rfl
  | .call _ args _ => by
    simp only [rename, substFirst, substFirstList_rename args, Option.map_map]
    rfl

theorem substFirstOption_rename : ∀ e : Option Expr,
    substFirstOption (r.rename ρ) (renameOption ρ e) = (substFirstOption r e).map (renameOption ρ)
  | none => rfl
  | some e => by
    simp only [renameOption, substFirstOption, substFirst_rename e, Option.map_map]
    rfl

theorem substFirstList_rename : ∀ es : List Expr,
    substFirstList (r.rename ρ) (renameList ρ es) = (substFirstList r es).map (renameList ρ)
  | [] => rfl
  | e :: rest => by
    simp only [renameList, substFirstList, substFirst_rename e, substFirstList_rename rest]
    cases e.substFirst r with
    | some found => rfl
    | none => cases substFirstList r rest <;> rfl

theorem substFirstFields_rename : ∀ fields : List (String × Expr),
    substFirstFields (r.rename ρ) (renameFields ρ fields) =
      (substFirstFields r fields).map (renameFields ρ)
  | [] => rfl
  | (_, e) :: rest => by
    simp only [renameFields, substFirstFields, substFirst_rename e, substFirstFields_rename rest]
    cases e.substFirst r with
    | some found => rfl
    | none => cases substFirstFields r rest <;> rfl

end

end Expr

/-! ### Statements -/

def Failure.rename : Failure → Failure
  | .unknownTag _ tag => .unknownTag "" (tag.rename ρ)
  | .literalMismatch expected found => .literalMismatch expected (found.rename ρ)
  | .unmatchedVariant _ => .unmatchedVariant ""

/-- The pattern without the name of its type. -/
def Pattern.plain : Pattern → Pattern
  | .lit l => .lit l
  | .enum _ name => .enum "" name
  | .variant _ name binding => .variant "" name binding

namespace Stmt

mutual

/-- The statement under new names. -/
def rename : Stmt → Stmt
  | .bind x m none => .bind x m none
  | .bind x m (some e) => .bind x m (some (e.rename ρ))
  | .assign x e => .assign x (e.rename ρ)
  | .eval e => .eval (e.rename ρ)
  | .write p e => .write p (e.rename ρ)
  | .writeCodec codec e => .writeCodec (ρ.codec codec) (e.rename ρ)
  | .branch e yes no => .branch (e.rename ρ) (renameBlock yes) (renameBlock no)
  | .ifPresent x e body => .ifPresent x (e.rename ρ) (renameBlock body)
  | .times e body => .times (e.rename ρ) (renameBlock body)
  | .forEach x e body => .forEach x (e.rename ρ) (renameBlock body)
  | .forEachPair k v e body => .forEachPair k v (e.rename ρ) (renameBlock body)
  | .push x e => .push x (e.rename ρ)
  | .select e arms fallback =>
    .select (e.rename ρ) (renameArms arms) (fallback.map (Failure.rename ρ))
  | .fail f => .fail (f.rename ρ)

def renameBlock : List Stmt → List Stmt
  | [] => []
  | s :: rest => rename s :: renameBlock rest

def renameArms : List (Pattern × List Stmt) → List (Pattern × List Stmt)
  | [] => []
  | (p, body) :: rest => (p.plain, renameBlock body) :: renameArms rest

end

variable {ρ}

theorem renameBlock_eq (stmts : List Stmt) : renameBlock ρ stmts = stmts.map (rename ρ) := by
  induction stmts with
  | nil => rfl
  | cons s rest ih => rw [renameBlock, ih, List.map_cons]

@[simp]
theorem renameBlock_append (front back : List Stmt) :
    renameBlock ρ (front ++ back) = renameBlock ρ front ++ renameBlock ρ back := by
  simp only [renameBlock_eq, List.map_append]

@[simp]
theorem isEmpty_renameBlock (stmts : List Stmt) :
    (renameBlock ρ stmts).isEmpty = stmts.isEmpty := by
  rw [renameBlock_eq, List.isEmpty_map]

theorem exprs_failure_rename (f : Failure) : (f.rename ρ).exprs = f.exprs.map (Expr.rename ρ) := by
  cases f <;> rfl

mutual

theorem flatten_rename : ∀ s : Stmt, (s.rename ρ).flatten = s.flatten.map (rename ρ)
  | .bind _ _ none | .bind _ _ (some _) | .assign _ _ | .eval _ | .write _ _ => rfl
  | .writeCodec _ _ | .push _ _ | .fail _ => rfl
  | .branch _ yes no => by
    simp only [rename, flatten, flattenBlock_rename yes, flattenBlock_rename no, List.map_cons,
      List.map_append]
  | .ifPresent _ _ body | .times _ body | .forEach _ _ body | .forEachPair _ _ _ body => by
    simp only [rename, flatten, flattenBlock_rename body, List.map_cons]
  | .select _ arms _ => by simp only [rename, flatten, flattenArms_rename arms, List.map_cons]

theorem flattenBlock_rename : ∀ stmts : List Stmt,
    flattenBlock (renameBlock ρ stmts) = (flattenBlock stmts).map (rename ρ)
  | [] => rfl
  | s :: rest => by
    simp only [renameBlock, flattenBlock, flatten_rename s, flattenBlock_rename rest,
      List.map_append]

theorem flattenArms_rename : ∀ arms : List (Pattern × List Stmt),
    flattenArms (renameArms ρ arms) = (flattenArms arms).map (rename ρ)
  | [] => rfl
  | (_, body) :: rest => by
    simp only [renameArms, flattenArms, flattenBlock_rename body, flattenArms_rename rest,
      List.map_append]

end

theorem exprs_rename (s : Stmt) : (s.rename ρ).exprs = s.exprs.map (Expr.rename ρ) := by
  cases s with
  | bind x m init => cases init <;> rfl
  | select e arms fallback =>
    cases fallback with
    | none => rfl
    | some f =>
      simp only [rename, exprs, Option.map_some, Option.toList_some, List.flatMap_cons,
        List.flatMap_nil, List.append_nil, List.map_cons, exprs_failure_rename]
  | fail f => exact exprs_failure_rename f
  | _ => rfl

theorem target?_rename (s : Stmt) : (s.rename ρ).target? = s.target? := by
  cases s with
  | bind x m init => cases init <;> rfl
  | _ => rfl

theorem pushed?_rename (s : Stmt) : (s.rename ρ).pushed? = s.pushed? := by
  cases s with
  | bind x m init => cases init <;> rfl
  | _ => rfl

theorem ownUses_rename (s : Stmt) : (s.rename ρ).ownUses = s.ownUses := by
  rw [ownUses, exprs_rename, pushed?_rename, List.flatMap_map, ownUses]
  simp only [Expr.locals_rename]

@[simp]
theorem uses_rename (stmts : List Stmt) : uses (renameBlock ρ stmts) = uses stmts := by
  rw [uses, flattenBlock_rename, List.flatMap_map, uses]
  simp only [ownUses_rename]

@[simp]
theorem assigned_rename (stmts : List Stmt) :
    assigned (renameBlock ρ stmts) = assigned stmts := by
  have same : target? ∘ rename ρ = target? := funext target?_rename
  rw [assigned, flattenBlock_rename, List.filterMap_map, same, assigned]

theorem uses_arms_rename (arms : List (Pattern × List Stmt)) :
    (renameArms ρ arms).flatMap (fun arm => uses arm.2) = arms.flatMap fun arm => uses arm.2 := by
  induction arms with
  | nil => rfl
  | cons arm rest ih =>
    rw [renameArms, List.flatMap_cons, List.flatMap_cons, ih]
    simp only [uses_rename]

theorem uses_blocks_rename (s : Stmt) : (s.rename ρ).blocks.flatMap uses = s.blocks.flatMap uses := by
  cases s with
  | bind x m init => cases init <;> rfl
  | branch e yes no => simp only [rename, blocks, List.flatMap_cons, uses_rename]
  | ifPresent _ _ body | times _ body | forEach _ _ body | forEachPair _ _ _ body =>
    simp only [rename, blocks, List.flatMap_cons, uses_rename]
  | select e arms fallback =>
    simp only [rename, blocks, List.flatMap_map]
    exact uses_arms_rename arms
  | _ => rfl

theorem mentions_rename (s : Stmt) (x : Nat) : (s.rename ρ).mentions x = s.mentions x := by
  rw [mentions, exprs_rename, List.any_map, uses_blocks_rename, mentions]
  simp only [Function.comp_def, Expr.mentions_rename]

theorem initialised?_rename (s : Stmt) :
    (s.rename ρ).initialised? = s.initialised?.map fun entry => (entry.1, entry.2.rename ρ) := by
  cases s with
  | bind x m init => cases m <;> cases init <;> rfl
  | _ => rfl

variable (r : Expr.Replacement)

theorem substFirst_failure_rename (f : Failure) :
    (f.rename ρ).substFirst (r.rename ρ) = (f.substFirst r).map (Failure.rename ρ) := by
  cases f with
  | unknownTag type tag =>
    simp only [Failure.rename, Failure.substFirst, Expr.substFirst_rename, Option.map_map]
    rfl
  | literalMismatch l found =>
    simp only [Failure.rename, Failure.substFirst, Expr.substFirst_rename, Option.map_map]
    rfl
  | unmatchedVariant type => rfl

theorem substFirst_fallback_rename (fallback : Option Failure) :
    (fallback.map (Failure.rename ρ)).bind (·.substFirst (r.rename ρ)) =
      (fallback.bind (·.substFirst r)).map (Failure.rename ρ) := by
  cases fallback with
  | none => rfl
  | some f => exact substFirst_failure_rename r f

mutual

theorem substFirst_rename : ∀ s : Stmt,
    (s.rename ρ).substFirst (r.rename ρ) = (s.substFirst r).map (rename ρ)
  | .bind _ _ none => rfl
  | .bind _ _ (some e) | .assign _ e | .eval e | .write _ e | .writeCodec _ e | .push _ e => by
    simp only [rename, substFirst, Expr.substFirst_rename, Option.map_map]
    rfl
  | .branch e yes no => by
    simp only [rename, substFirst, Expr.substFirst_rename, substFirstBlock_rename yes,
      substFirstBlock_rename no]
    cases e.substFirst r with
    | some found => rfl
    | none =>
      cases substFirstBlock r yes with
      | some found => rfl
      | none => cases substFirstBlock r no <;> rfl
  | .ifPresent _ e body | .times e body | .forEach _ e body | .forEachPair _ _ e body => by
    simp only [rename, substFirst, Expr.substFirst_rename, substFirstBlock_rename body]
    cases e.substFirst r with
    | some found => rfl
    | none => cases substFirstBlock r body <;> rfl
  | .select e arms fallback => by
    simp only [rename, substFirst, Expr.substFirst_rename, substFirst_fallback_rename,
      substFirstArms_rename arms]
    cases e.substFirst r with
    | some found => rfl
    | none =>
      cases fallback.bind (·.substFirst r) with
      | some found => rfl
      | none => cases substFirstArms r arms <;> rfl
  | .fail f => by
    simp only [rename, substFirst, substFirst_failure_rename, Option.map_map]
    rfl

theorem substFirstBlock_rename : ∀ stmts : List Stmt,
    substFirstBlock (r.rename ρ) (renameBlock ρ stmts) =
      (substFirstBlock r stmts).map (renameBlock ρ)
  | [] => rfl
  | s :: rest => by
    simp only [renameBlock, substFirstBlock, substFirst_rename s, substFirstBlock_rename rest]
    cases s.substFirst r with
    | some found => rfl
    | none => cases substFirstBlock r rest <;> rfl

theorem substFirstArms_rename : ∀ arms : List (Pattern × List Stmt),
    substFirstArms (r.rename ρ) (renameArms ρ arms) = (substFirstArms r arms).map (renameArms ρ)
  | [] => rfl
  | (_, body) :: rest => by
    simp only [renameArms, substFirstArms, substFirstBlock_rename body, substFirstArms_rename rest]
    cases substFirstBlock r body with
    | some found => rfl
    | none => cases substFirstArms r rest <;> rfl

end

end Stmt

/-! ### Elision -/

variable {ρ}

theorem Stmt.isUnused_rename (used : List Nat) (s : Stmt) :
    (s.rename ρ).isUnused used = s.isUnused used := by
  rw [Stmt.isUnused, Stmt.initialised?_rename, Stmt.isUnused]
  cases s.initialised? <;> rfl

theorem Stmt.dropUnused_rename (used : List Nat) (s : Stmt) :
    (s.rename ρ).dropUnused used = Stmt.renameBlock ρ (s.dropUnused used) := by
  rw [Stmt.dropUnused, Stmt.initialised?_rename, Stmt.dropUnused]
  cases s.initialised? with
  | none => rfl
  | some entry =>
    simp only [Option.map_some, Expr.hasEffect_rename]
    split
    · rfl
    · split <;> rfl

namespace Block

variable (ρ) in
/-- The body under new names. -/
def rename (b : Block) : Block := ⟨Stmt.renameBlock ρ b.stmts, b.result.rename ρ⟩

theorem uses_rename (b : Block) : (b.rename ρ).uses = b.uses := by
  simp only [uses, rename, Stmt.uses_rename, Expr.locals_rename]

theorem dropRounds_rename (fuel : Nat) (b : Block) :
    (b.rename ρ).dropRounds fuel = (b.dropRounds fuel).rename ρ := by
  induction fuel generalizing b with
  | zero => rfl
  | succ fuel ih =>
    have unused (used : List Nat) : (b.rename ρ).stmts.any (·.isUnused used) =
        b.stmts.any (·.isUnused used) := by
      simp only [rename, Stmt.renameBlock_eq, List.any_map, Function.comp_def,
        Stmt.isUnused_rename]
    have dropped (used : List Nat) : (b.rename ρ).stmts.flatMap (·.dropUnused used) =
        Stmt.renameBlock ρ (b.stmts.flatMap (·.dropUnused used)) := by
      simp only [rename, Stmt.renameBlock_eq, List.flatMap_map, List.map_flatMap,
        Stmt.dropUnused_rename]
    simp only [dropRounds, uses_rename, unused, dropped]
    split
    · exact ih ⟨_, _⟩
    · rfl

theorem dropUnused_rename (b : Block) : (b.rename ρ).dropUnused = b.dropUnused.rename ρ := by
  have size : (b.rename ρ).stmts.length = b.stmts.length := by
    rw [rename, Stmt.renameBlock_eq, List.length_map]
  rw [dropUnused, size, dropRounds_rename, dropUnused]

end Block

theorem splitAtMention_rename (x : Nat) (stmts : List Stmt) :
    splitAtMention x (Stmt.renameBlock ρ stmts) =
      (Stmt.renameBlock ρ (splitAtMention x stmts).1,
        (splitAtMention x stmts).2.map fun found =>
          (found.1.rename ρ, Stmt.renameBlock ρ found.2)) := by
  induction stmts with
  | nil => rfl
  | cons s rest ih =>
    simp only [Stmt.renameBlock, splitAtMention, Stmt.mentions_rename]
    split
    · rfl
    · simp only [ih, Stmt.renameBlock]

theorem forwardInto_rename (x : Local) (init : Expr) (b : Block) :
    forwardInto x (init.rename ρ) (b.rename ρ) = (forwardInto x init b).map (Block.rename ρ) := by
  have replaced : (⟨x.id, init.rename ρ⟩ : Expr.Replacement) = Expr.Replacement.rename ⟨x.id, init⟩ ρ :=
    rfl
  have stmts : (b.rename ρ).stmts = Stmt.renameBlock ρ b.stmts := rfl
  simp only [forwardInto, stmts, splitAtMention_rename, Expr.locals_rename, replaced]
  cases splitAtMention x.id b.stmts with
  | mk before found =>
    cases found with
    | none =>
      simp only [Option.map_none, Stmt.assigned_rename]
      split
      · rfl
      · simp only [Block.rename, Expr.substFirst_rename, Option.map_map]
        rfl
    | some entry =>
      obtain ⟨s, after⟩ := entry
      have single : [s.rename ρ] = Stmt.renameBlock ρ [s] := rfl
      simp only [Option.map_some, single, ← Stmt.renameBlock_append, Stmt.assigned_rename]
      split
      · rfl
      · simp only [Stmt.substFirst_rename, Option.map_map]
        congr 1
        funext s'
        simp only [Function.comp_apply, Block.rename, Stmt.renameBlock_append, Stmt.renameBlock]

theorem forwardFrom_rename (before : List Stmt) (b : Block) :
    forwardFrom (Stmt.renameBlock ρ before) (b.rename ρ) = (forwardFrom before b).rename ρ := by
  induction before generalizing b with
  | nil => rfl
  | cons s before ih =>
    have kept : ({ b.rename ρ with stmts := s.rename ρ :: (b.rename ρ).stmts } : Block) =
        Block.rename ρ { b with stmts := s :: b.stmts } := rfl
    have earlier : (Stmt.renameBlock ρ before).reverse = Stmt.renameBlock ρ before.reverse := by
      simp only [Stmt.renameBlock_eq, List.map_reverse]
    simp only [Stmt.renameBlock, forwardFrom, Stmt.initialised?_rename, kept]
    cases s.initialised? with
    | none => exact ih _
    | some entry =>
      simp only [Option.map_some, Expr.hasEffect_rename, earlier, Stmt.uses_rename,
        Block.uses_rename]
      split
      · rw [forwardInto_rename, ← ih]
        cases forwardInto entry.1 entry.2 b <;> rfl
      · exact ih _

theorem inlineFrom_rename (uses : List Nat) (before : List Stmt) (result : Expr) :
    inlineFrom uses (Stmt.renameBlock ρ before) (result.rename ρ) =
      (inlineFrom uses before result).rename ρ := by
  induction before generalizing result with
  | nil => rfl
  | cons s before ih =>
    have stopped : (⟨(s.rename ρ :: Stmt.renameBlock ρ before).reverse, result.rename ρ⟩ : Block) =
        Block.rename ρ ⟨(s :: before).reverse, result⟩ := by
      rw [Block.rename, Stmt.renameBlock_eq, Stmt.renameBlock_eq, ← List.map_cons,
        List.map_reverse]
    simp only [Stmt.renameBlock, inlineFrom, Stmt.initialised?_rename]
    cases s.initialised? with
    | none => exact stopped
    | some entry =>
      have replaced : (⟨entry.1.id, entry.2.rename ρ⟩ : Expr.Replacement) =
          Expr.Replacement.rename ⟨entry.1.id, entry.2⟩ ρ := rfl
      simp only [Option.map_some, Expr.hasEffect_rename, Expr.mentions_rename,
        Expr.effectPrecedes_rename, replaced, Expr.substFirst_rename]
      split
      · rw [← ih]
        cases result.substFirst ⟨entry.1.id, entry.2⟩ <;> rfl
      · exact stopped

/-- Elision does not look at names. -/
theorem Block.elide_rename (b : Block) : (b.rename ρ).elide = b.elide.rename ρ := by
  have reversed (stmts : List Stmt) :
      (Stmt.renameBlock ρ stmts).reverse = Stmt.renameBlock ρ stmts.reverse := by
    simp only [Stmt.renameBlock_eq, List.map_reverse]
  have forwarded (b : Block) : (b.rename ρ).forward = b.forward.rename ρ := by
    rw [Block.forward, Block.forward, ← forwardFrom_rename, ← reversed]
    rfl
  have inlined (b : Block) : (b.rename ρ).inlineTrailing = b.inlineTrailing.rename ρ := by
    rw [Block.inlineTrailing, Block.inlineTrailing, ← inlineFrom_rename, ← reversed, uses_rename]
    rfl
  rw [elide, elide, dropUnused_rename, forwarded, inlined]

end WireSchema.Ir
