import WireSchema.Proofs.Elision.Hygiene

/-!
# The parts of generated code

Properties of a body that hold of it if they hold of every part of it. One of them is about the
structs that it constructs: elision moves expressions to other places, but it neither adds a struct
nor changes its type or the names of its members.
-/

namespace WireSchema.Ir

namespace Expr

variable {P Q : Expr → Prop} {e : Expr}

/-- Every part of the expression satisfies `P`. -/
def Each (P : Expr → Prop) (e : Expr) : Prop := ∀ n ∈ e.nodes, P n

theorem each_iff : e.Each P ↔ P e ∧ ∀ part ∈ e.children, part.Each P := by
  simp only [Each]
  rw [nodes_eq, List.forall_mem_cons]
  simp only [List.forall_mem_flatMap]

theorem Each.here (each : e.Each P) : P e := (each_iff.mp each).1

theorem Each.child (each : e.Each P) {part : Expr} (member : part ∈ e.children) : part.Each P :=
  (each_iff.mp each).2 part member

theorem Each.imp (each : e.Each P) (weaker : ∀ n, P n → Q n) : e.Each Q :=
  fun n node => weaker n (each n node)

theorem each_single (own : P e) (leaf : e.children = []) : e.Each P :=
  each_iff.mpr ⟨own, by simp [leaf]⟩

/-- The type of a struct that is constructed and the names of its members satisfy `R`. -/
def Constructs (R : String → List String → Prop) (e : Expr) : Prop :=
  ∀ type members, e = .struct type members → R type (members.map (·.1))

theorem constructs_struct {R : String → List String → Prop} {type : String}
    {members : List (String × Expr)} :
    (Expr.struct type members).Constructs R ↔ R type (members.map (·.1)) := by
  constructor
  · exact fun holds => holds type members rfl
  · rintro holds _ _ ⟨⟩
    exact holds

/-! ### Replacing the first use -/

section SubstFirst

variable {R : String → List String → Prop} {r : Replacement}

mutual

-- Where there are several parts, the use is replaced in the first of them that has it.
theorem each_substFirst (image : r.image.Each (Constructs R)) : ∀ {e e' : Expr},
    e.Each (Constructs R) → e.substFirst r = some e' → e'.Each (Constructs R)
  | .var y, _, _, found => by
    rw [substFirst] at found
    split at found
    · cases found
      exact image
    · cases found
  | .lit _, _, _, found | .read _, _, _, found | .enumValue _ _, _, _, found => nomatch found
  | .absent, _, _, found | .newList, _, _, found | .newMap, _, _, found => nomatch found
  | .callDecode _, _, _, found => nomatch found
  | .deref e, _, each, found | .borrow e, _, each, found | .field e _, _, each, found
  | .cast e _, _, each, found | .present e, _, each, found | .isPresent e, _, each, found
  | .len e, _, each, found | .fromId _ e, _, each, found | .toId _ e, _, each, found => by
    obtain ⟨e', within, rfl⟩ := Option.map_eq_some_iff.mp found
    have part := each_substFirst image (each.child List.mem_cons_self) within
    exact each_iff.mpr ⟨nofun, List.forall_mem_singleton.mpr part⟩
  | .struct type members, _, each, found => by
    obtain ⟨members', within, rfl⟩ := Option.map_eq_some_iff.mp found
    obtain ⟨names, parts⟩ := each_substFirstFields image
      (fun m member => each.child (List.mem_map_of_mem member)) within
    refine each_iff.mpr ⟨constructs_struct.mpr ?_, List.forall_mem_map.mpr parts⟩
    rw [names]
    exact constructs_struct.mp each.here
  | .variant _ _ none, _, _, found => nomatch found
  | .variant _ _ (some e), _, each, found => by
    obtain ⟨payload, inside, rfl⟩ := Option.map_eq_some_iff.mp found
    obtain ⟨e', within, rfl⟩ := Option.map_eq_some_iff.mp inside
    have part := each_substFirst image (each.child List.mem_cons_self) within
    exact each_iff.mpr ⟨nofun, List.forall_mem_singleton.mpr part⟩
  | .binary _ a b, _, each, found | .pair a b, _, each, found => by
    have left := each.child List.mem_cons_self
    have right := each.child (List.mem_cons_of_mem _ List.mem_cons_self)
    rw [substFirst] at found
    split at found
    case h_1 a' within =>
      cases found
      exact each_iff.mpr ⟨nofun, List.forall_mem_cons.mpr
        ⟨each_substFirst image left within, List.forall_mem_singleton.mpr right⟩⟩
    case h_2 =>
      obtain ⟨b', within, rfl⟩ := Option.map_eq_some_iff.mp found
      exact each_iff.mpr ⟨nofun, List.forall_mem_cons.mpr
        ⟨left, List.forall_mem_singleton.mpr (each_substFirst image right within)⟩⟩
  | .cond c t o, _, each, found => by
    have test := each.child List.mem_cons_self
    have yes := each.child (List.mem_cons_of_mem _ List.mem_cons_self)
    have no := each.child (List.mem_cons_of_mem _ (List.mem_cons_of_mem _ List.mem_cons_self))
    have whole {c t o : Expr} (test : c.Each (Constructs R)) (yes : t.Each (Constructs R))
        (no : o.Each (Constructs R)) : (Expr.cond c t o).Each (Constructs R) :=
      each_iff.mpr ⟨nofun, List.forall_mem_cons.mpr ⟨test, List.forall_mem_cons.mpr
        ⟨yes, List.forall_mem_singleton.mpr no⟩⟩⟩
    rw [substFirst] at found
    split at found
    case h_1 c' within =>
      cases found
      exact whole (each_substFirst image test within) yes no
    case h_2 =>
      split at found
      case h_1 t' within =>
        cases found
        exact whole test (each_substFirst image yes within) no
      case h_2 =>
        obtain ⟨o', within, rfl⟩ := Option.map_eq_some_iff.mp found
        exact whole test yes (each_substFirst image no within)
  | .call _ args _, _, each, found => by
    obtain ⟨args', within, rfl⟩ := Option.map_eq_some_iff.mp found
    exact each_iff.mpr ⟨nofun, each_substFirstList image (fun e member => each.child member) within⟩

theorem each_substFirstList (image : r.image.Each (Constructs R)) : ∀ {es es' : List Expr},
    (∀ e ∈ es, e.Each (Constructs R)) → substFirstList r es = some es' →
    ∀ e ∈ es', e.Each (Constructs R)
  | [], _, _, found => nomatch found
  | e :: rest, _, each, found => by
    obtain ⟨first, others⟩ := List.forall_mem_cons.mp each
    rw [substFirstList] at found
    split at found
    case h_1 e' within =>
      cases found
      exact List.forall_mem_cons.mpr ⟨each_substFirst image first within, others⟩
    case h_2 =>
      obtain ⟨rest', within, rfl⟩ := Option.map_eq_some_iff.mp found
      exact List.forall_mem_cons.mpr ⟨first, each_substFirstList image others within⟩

/-- The members keep their names. -/
theorem each_substFirstFields (image : r.image.Each (Constructs R)) :
    ∀ {members members' : List (String × Expr)},
    (∀ m ∈ members, m.2.Each (Constructs R)) → substFirstFields r members = some members' →
    members'.map (·.1) = members.map (·.1) ∧ ∀ m ∈ members', m.2.Each (Constructs R)
  | [], _, _, found => nomatch found
  | (name, e) :: rest, _, each, found => by
    obtain ⟨first, others⟩ := List.forall_mem_cons.mp each
    rw [substFirstFields] at found
    split at found
    case h_1 e' within =>
      cases found
      exact ⟨rfl, List.forall_mem_cons.mpr ⟨each_substFirst image first within, others⟩⟩
    case h_2 =>
      obtain ⟨rest', within, rfl⟩ := Option.map_eq_some_iff.mp found
      obtain ⟨names, parts⟩ := each_substFirstFields image others within
      exact ⟨by rw [List.map_cons, List.map_cons, names], List.forall_mem_cons.mpr ⟨first, parts⟩⟩

end

/-- The expression constructs a struct of the type with members of the names; the parts of the
members satisfy `R`. -/
def Makes (R : String → List String → Prop) (type : String) (names : List String) (e : Expr) : Prop :=
  ∃ members, e = .struct type members ∧ members.map (·.1) = names ∧
    ∀ m ∈ members, m.2.Each (Constructs R)

theorem makes_substFirst (image : r.image.Each (Constructs R)) {type : String} {names : List String}
    {e e' : Expr} (makes : e.Makes R type names) (found : e.substFirst r = some e') :
    e'.Makes R type names := by
  obtain ⟨members, rfl, rfl, parts⟩ := makes
  obtain ⟨members', within, rfl⟩ := Option.map_eq_some_iff.mp found
  obtain ⟨names, parts'⟩ := each_substFirstFields image parts within
  exact ⟨members', rfl, names, parts'⟩

end SubstFirst

end Expr

namespace Stmt

variable {P : Expr → Prop} {s : Stmt} {stmts front back : List Stmt}

/-- Every expression in the statements satisfies `P`, and so does every part of it. -/
def Each (P : Expr → Prop) (stmts : List Stmt) : Prop := ∀ n ∈ nodes stmts, P n

@[simp]
theorem each_nil : Each P [] := nofun

@[simp]
theorem each_append : Each P (front ++ back) ↔ Each P front ∧ Each P back := by
  simp only [Each, nodes, flattenBlock_append, List.flatMap_append, List.forall_mem_append]

theorem each_cons : Each P (s :: stmts) ↔ Each P [s] ∧ Each P stmts := by
  rw [← each_append, List.singleton_append]

theorem each_single : Each P [s] ↔
    (∀ e ∈ s.exprs, e.Each P) ∧ ∀ block ∈ s.blocks, Each P block := by
  simp only [Each, nodes, flattenBlock_cons, List.flatMap_cons, List.forall_mem_append,
    List.forall_mem_flatMap, Expr.Each]
  simp [flattenBlock]

theorem Each.imp {Q : Expr → Prop} (each : Each P stmts) (weaker : ∀ n, P n → Q n) : Each Q stmts :=
  fun n node => weaker n (each n node)

theorem each_iff_forall : Each P stmts ↔ ∀ s ∈ stmts, Each P [s] := by
  induction stmts with
  | nil => simp
  | cons s rest ih => rw [List.forall_mem_cons, ← ih, each_cons]

theorem each_reverse : Each P stmts.reverse ↔ Each P stmts := by
  rw [each_iff_forall, each_iff_forall]
  simp only [List.mem_reverse]

/-! ### Replacing the first use -/

section SubstFirst

variable {R : String → List String → Prop} {r : Expr.Replacement}

theorem each_substFirst_failure (image : r.image.Each (Expr.Constructs R)) {f f' : Failure}
    (each : ∀ e ∈ f.exprs, e.Each (Expr.Constructs R)) (found : f.substFirst r = some f') :
    ∀ e ∈ f'.exprs, e.Each (Expr.Constructs R) := by
  cases f with
  | unknownTag type tag =>
    obtain ⟨tag', within, rfl⟩ := Option.map_eq_some_iff.mp found
    have part := Expr.each_substFirst image (each tag List.mem_cons_self) within
    exact List.forall_mem_singleton.mpr part
  | literalMismatch l actual =>
    obtain ⟨actual', within, rfl⟩ := Option.map_eq_some_iff.mp found
    have part := Expr.each_substFirst image (each actual List.mem_cons_self) within
    exact List.forall_mem_singleton.mpr part
  | unmatchedVariant type => cases found

mutual

theorem each_substFirst (image : r.image.Each (Expr.Constructs R)) : ∀ {s s' : Stmt},
    Each (Expr.Constructs R) [s] → s.substFirst r = some s' → Each (Expr.Constructs R) [s']
  | .bind _ _ none, _, _, found => nomatch found
  | .bind _ _ (some e), _, each, found | .assign _ e, _, each, found | .eval e, _, each, found
  | .write _ e, _, each, found | .writeCodec _ e, _, each, found | .push _ e, _, each, found => by
    obtain ⟨e', within, rfl⟩ := Option.map_eq_some_iff.mp found
    have own := (each_single.mp each).1 e List.mem_cons_self
    have part := Expr.each_substFirst image own within
    exact each_single.mpr ⟨List.forall_mem_singleton.mpr part, nofun⟩
  | .ifPresent _ e body, _, each, found | .times e body, _, each, found
  | .forEach _ e body, _, each, found | .forEachPair _ _ e body, _, each, found => by
    obtain ⟨own, inner⟩ := each_single.mp each
    rw [substFirst] at found
    split at found
    case h_1 e' within =>
      cases found
      have part := Expr.each_substFirst image (own e List.mem_cons_self) within
      exact each_single.mpr ⟨List.forall_mem_singleton.mpr part, inner⟩
    case h_2 =>
      obtain ⟨body', within, rfl⟩ := Option.map_eq_some_iff.mp found
      have part := each_substFirstBlock image (inner body List.mem_cons_self) within
      exact each_single.mpr ⟨own, List.forall_mem_singleton.mpr part⟩
  | .branch e yes no, _, each, found => by
    obtain ⟨own, inner⟩ := each_single.mp each
    obtain ⟨ofYes, ofNo⟩ := List.forall_mem_cons.mp inner
    rw [substFirst] at found
    split at found
    case h_1 e' within =>
      cases found
      have part := Expr.each_substFirst image (own e List.mem_cons_self) within
      exact each_single.mpr ⟨List.forall_mem_singleton.mpr part, inner⟩
    case h_2 =>
      split at found
      case h_1 yes' within =>
        cases found
        have part := each_substFirstBlock image ofYes within
        exact each_single.mpr ⟨own, List.forall_mem_cons.mpr ⟨part, ofNo⟩⟩
      case h_2 =>
        obtain ⟨no', within, rfl⟩ := Option.map_eq_some_iff.mp found
        have part := each_substFirstBlock image (ofNo no List.mem_cons_self) within
        exact each_single.mpr ⟨own, List.forall_mem_cons.mpr
          ⟨ofYes, List.forall_mem_singleton.mpr part⟩⟩
  | .select e arms fallback, _, each, found => by
    obtain ⟨own, inner⟩ := each_single.mp each
    obtain ⟨ofTag, ofFallback⟩ := List.forall_mem_cons.mp own
    rw [substFirst] at found
    split at found
    case h_1 e' within =>
      cases found
      have part := Expr.each_substFirst image ofTag within
      exact each_single.mpr ⟨List.forall_mem_cons.mpr ⟨part, ofFallback⟩, inner⟩
    case h_2 =>
      split at found
      case h_1 f' within =>
        cases found
        obtain ⟨f, rfl, within⟩ := Option.bind_eq_some_iff.mp within
        have parts := each_substFirst_failure image (by simpa using ofFallback) within
        exact each_single.mpr ⟨List.forall_mem_cons.mpr ⟨ofTag, by simpa using parts⟩, inner⟩
      case h_2 =>
        obtain ⟨arms', within, rfl⟩ := Option.map_eq_some_iff.mp found
        have parts := each_substFirstArms image (List.forall_mem_map.mp inner) within
        exact each_single.mpr ⟨own, List.forall_mem_map.mpr parts⟩
  | .fail f, _, each, found => by
    obtain ⟨f', within, rfl⟩ := Option.map_eq_some_iff.mp found
    exact each_single.mpr ⟨each_substFirst_failure image (each_single.mp each).1 within, nofun⟩

theorem each_substFirstBlock (image : r.image.Each (Expr.Constructs R)) :
    ∀ {stmts stmts' : List Stmt}, Each (Expr.Constructs R) stmts →
    substFirstBlock r stmts = some stmts' → Each (Expr.Constructs R) stmts'
  | [], _, _, found => nomatch found
  | s :: rest, _, each, found => by
    obtain ⟨first, others⟩ := each_cons.mp each
    rw [substFirstBlock] at found
    split at found
    case h_1 s' within =>
      cases found
      exact each_cons.mpr ⟨each_substFirst image first within, others⟩
    case h_2 =>
      obtain ⟨rest', within, rfl⟩ := Option.map_eq_some_iff.mp found
      exact each_cons.mpr ⟨first, each_substFirstBlock image others within⟩

theorem each_substFirstArms (image : r.image.Each (Expr.Constructs R)) :
    ∀ {arms arms' : List (Pattern × List Stmt)},
    (∀ arm ∈ arms, Each (Expr.Constructs R) arm.2) → substFirstArms r arms = some arms' →
    ∀ arm ∈ arms', Each (Expr.Constructs R) arm.2
  | [], _, _, found => nomatch found
  | (p, body) :: rest, _, each, found => by
    obtain ⟨first, others⟩ := List.forall_mem_cons.mp each
    rw [substFirstArms] at found
    split at found
    case h_1 body' within =>
      cases found
      exact List.forall_mem_cons.mpr ⟨each_substFirstBlock image first within, others⟩
    case h_2 =>
      obtain ⟨rest', within, rfl⟩ := Option.map_eq_some_iff.mp found
      exact List.forall_mem_cons.mpr ⟨first, each_substFirstArms image others within⟩

end

end SubstFirst

end Stmt

/-! ### Elision -/

namespace Block

open Stmt

variable {R : String → List String → Prop} {G : Expr → Prop}

/-- The property of results survives that a use is replaced by an expression whose structs are all
right. -/
def Survives (R : String → List String → Prop) (G : Expr → Prop) : Prop :=
  ∀ {r : Expr.Replacement} {e e' : Expr}, r.image.Each (Expr.Constructs R) → G e →
    e.substFirst r = some e' → G e'

theorem each_initialised {s : Stmt} {x : Local} {init : Expr} (is : s.initialised? = some (x, init))
    (each : Stmt.Each (Expr.Constructs R) [s]) : init.Each (Expr.Constructs R) := by
  cases eq_bind_of_initialised is
  exact (each_single.mp each).1 init List.mem_cons_self

theorem each_dropRounds (fuel : Nat) (b : Block) (each : Stmt.Each (Expr.Constructs R) b.stmts) :
    Stmt.Each (Expr.Constructs R) (b.dropRounds fuel).stmts ∧
      (b.dropRounds fuel).result = b.result := by
  induction fuel generalizing b with
  | zero => exact ⟨each, rfl⟩
  | succ fuel ih =>
    rw [dropRounds]
    split
    case isFalse => exact ⟨each, rfl⟩
    case isTrue =>
      refine ih ⟨_, b.result⟩ (each_iff_forall.mpr ?_)
      refine List.forall_mem_flatMap.mpr fun s member => ?_
      have own := each_iff_forall.mp each s member
      unfold Stmt.dropUnused
      split
      case h_1 x init is =>
        split
        · exact List.forall_mem_singleton.mpr own
        · split
          · refine List.forall_mem_singleton.mpr (each_single.mpr ⟨?_, List.forall_mem_nil _⟩)
            exact List.forall_mem_singleton.mpr (each_initialised is own)
          · exact List.forall_mem_nil _
      case h_2 => exact List.forall_mem_singleton.mpr own

theorem splitAtMention_eq (x : Nat) (stmts : List Stmt) :
    stmts = (splitAtMention x stmts).1 ++
      match (splitAtMention x stmts).2 with
      | some (s, after) => s :: after
      | none => [] := by
  induction stmts with
  | nil => rfl
  | cons s rest ih =>
    rw [splitAtMention]
    split
    · rfl
    · exact congrArg (s :: ·) ih

theorem each_forwardInto (survives : Survives R G) {x : Local} {init : Expr} {b b' : Block}
    (image : init.Each (Expr.Constructs R)) (each : Stmt.Each (Expr.Constructs R) b.stmts)
    (result : G b.result) (found : forwardInto x init b = some b') :
    Stmt.Each (Expr.Constructs R) b'.stmts ∧ G b'.result := by
  have whole := splitAtMention_eq x.id b.stmts
  simp only [forwardInto] at found
  split at found
  case h_1 before s after split =>
    rw [split] at whole
    rw [whole, each_append] at each
    obtain ⟨early, here⟩ := each
    obtain ⟨own, later⟩ := each_cons.mp here
    split at found
    · cases found
    · obtain ⟨s', within, rfl⟩ := Option.map_eq_some_iff.mp found
      have part := Stmt.each_substFirst image own within
      exact ⟨each_append.mpr ⟨early, each_cons.mpr ⟨part, later⟩⟩, result⟩
  case h_2 split =>
    split at found
    · cases found
    · obtain ⟨result', within, rfl⟩ := Option.map_eq_some_iff.mp found
      exact ⟨each, survives image result within⟩

theorem each_forwardFrom (survives : Survives R G) (before : List Stmt) (b : Block)
    (early : Stmt.Each (Expr.Constructs R) before) (each : Stmt.Each (Expr.Constructs R) b.stmts)
    (result : G b.result) :
    Stmt.Each (Expr.Constructs R) (forwardFrom before b).stmts ∧ G (forwardFrom before b).result := by
  -- From the last statement to the first; what was passed stands in the block.
  induction before generalizing b with
  | nil => exact ⟨each, result⟩
  | cons s before ih =>
    obtain ⟨own, early⟩ := each_cons.mp early
    have kept := ih ⟨s :: b.stmts, b.result⟩ early (each_cons.mpr ⟨own, each⟩) result
    simp only [forwardFrom]
    split
    case h_2 => exact kept
    case h_1 x init is =>
      split
      case isFalse => exact kept
      case isTrue =>
        cases found : forwardInto x init b with
        | none => exact kept
        | some b' =>
          obtain ⟨each', result'⟩ := each_forwardInto survives (each_initialised is own) each result
            found
          exact ih b' early each' result'

theorem each_inlineFrom (survives : Survives R G) (uses : List Nat) (before : List Stmt)
    (result : Expr) (each : Stmt.Each (Expr.Constructs R) before) (holds : G result) :
    Stmt.Each (Expr.Constructs R) (inlineFrom uses before result).stmts ∧
      G (inlineFrom uses before result).result := by
  induction before generalizing result with
  | nil => exact ⟨each, holds⟩
  | cons s before ih =>
    obtain ⟨own, early⟩ := each_cons.mp each
    rw [inlineFrom]
    split
    case h_2 => exact ⟨each_reverse.mpr each, holds⟩
    case h_1 x init is =>
      split
      case isFalse => exact ⟨each_reverse.mpr each, holds⟩
      case isTrue =>
        refine ih _ early ?_
        cases found : result.substFirst ⟨x.id, init⟩ with
        | none => exact holds
        | some result' => exact survives (each_initialised is own) holds found

/-- Elision builds the structs that were built before. -/
theorem each_elide (survives : Survives R G) {b : Block}
    (each : Stmt.Each (Expr.Constructs R) b.stmts) (result : G b.result) :
    Stmt.Each (Expr.Constructs R) b.elide.stmts ∧ G b.elide.result := by
  obtain ⟨dropped, same⟩ := each_dropRounds b.stmts.length b each
  obtain ⟨forwarded, result⟩ := each_forwardFrom survives b.dropUnused.stmts.reverse
    ⟨[], b.dropUnused.result⟩ (each_reverse.mpr dropped) each_nil (same ▸ result)
  exact each_inlineFrom survives _ _ _ (each_reverse.mpr forwarded) result

end Block

end WireSchema.Ir
