import WireSchema.Proofs.Elision.Passes
import WireSchema.Proofs.Lookup

/-!
# Hygiene of bodies

A body is scoped if every binding that it uses or sets is in force at that point: it was introduced
earlier in the same block or in a block around it. Elision drops bindings, and moves and copies
expressions; it keeps bodies scoped and introduces nothing.
-/

namespace WireSchema.Ir

/-- A binding in force, and whether it may be set after it was introduced. -/
structure Binder where
  var : Local
  settable : Bool
  deriving DecidableEq, Repr

namespace Binder

/-- A binding that keeps its value. -/
def fixed (x : Local) : Binder := ⟨x, false⟩

@[simp]
theorem var_fixed (x : Local) : (fixed x).var = x := rfl

@[simp]
theorem map_var_fixed (xs : List Local) : (xs.map fixed).map (·.var) = xs := by
  rw [List.map_map]
  exact List.map_id xs

/-- The binding is one of those in force. -/
def Among (visible : List Binder) (b : Binder) : Prop := b ∈ visible

/-- The binding is the innermost in force with its number, and the innermost with its name. -/
def Resolves (visible : List Binder) (b : Binder) : Prop :=
  visible.find? (·.var.id == b.var.id) = some b ∧
    visible.find? (·.var.name == b.var.name) = some b

end Binder

/-! ### Occurrences -/

namespace Expr

/-- The binding that a node is an occurrence of. -/
def var? : Expr → Option Local
  | .var x => some x
  | _ => none

/-- The bindings that an expression refers to, one entry for each occurrence. -/
def vars (e : Expr) : List Local := e.nodes.filterMap var?

theorem locals_eq_vars (e : Expr) : e.locals = e.vars.map (·.id) := by
  rw [locals, vars, List.map_filterMap]
  refine congrArg (List.filterMap · e.nodes) (funext fun n => ?_)
  cases n <;> rfl

theorem mem_locals_of_vars {e : Expr} {x : Local} (used : x ∈ e.vars) : x.id ∈ e.locals := by
  rw [locals_eq_vars]
  exact List.mem_map_of_mem used

/-- After replacing there are the occurrences of other bindings and those in the image. -/
theorem mem_vars_subst {r : Replacement} {e : Expr} {x : Local} (used : x ∈ (e.subst r).vars) :
    x ∈ e.vars ∧ x.id ≠ r.binding ∨ x ∈ r.image.vars := by
  have carried := carries_nodes (r := r)
    (P := fun n => ∀ y, n.var? = some y → y ∈ e.vars ∧ y.id ≠ r.binding ∨ y ∈ r.image.vars)
    (fun n node y here => .inr (List.mem_filterMap.mpr ⟨n, node, here⟩)) e
  obtain ⟨n, node, here⟩ := List.mem_filterMap.mp used
  refine carried (fun n node other y here => .inl ?_) n node x here
  cases n with
  | var z =>
    have other : z.id ≠ r.binding := fun same => other (congrArg some same)
    rw [subst, if_neg other] at here
    cases here
    exact ⟨List.mem_filterMap.mpr ⟨_, node, rfl⟩, other⟩
  | _ => cases here

end Expr

/-! ### Scopes -/

/-- Every occurrence in the expression is of a binding in force, which `sees` finds. -/
def Expr.Scoped (sees : List Binder → Binder → Prop) (visible : List Binder) (e : Expr) : Prop :=
  ∀ x ∈ e.vars, ∃ settable, sees visible ⟨x, settable⟩

namespace Expr

theorem nodes_eq (e : Expr) : e.nodes = e :: e.children.flatMap nodes := by
  have fields (fields : List (String × Expr)) :
      nodesFields fields = (fields.map (·.2)).flatMap nodes := by
    induction fields with
    | nil => rfl
    | cons first rest ih => simp [nodesFields, ih]
  have list (es : List Expr) : nodesList es = es.flatMap nodes := by
    induction es with
    | nil => rfl
    | cons first rest ih => simp [nodesList, ih]
  cases e with
  | struct type parts => simp [nodes, children, fields]
  | call path args fallible => simp [nodes, children, list]
  | variant type name payload => cases payload <;> simp [nodes, nodesOption, children]
  | _ => simp [nodes, children]

section Scoped

variable {sees : List Binder → Binder → Prop} {visible : List Binder}

/-- An expression that is no occurrence itself is scoped if its parts are. -/
theorem scoped_iff_children {e : Expr} (other : e.var? = none) :
    e.Scoped sees visible ↔ ∀ part ∈ e.children, part.Scoped sees visible := by
  have vars : e.vars = e.children.flatMap Expr.vars := by
    rw [Expr.vars, nodes_eq, List.filterMap_cons, other, List.filterMap_flatMap]
    rfl
  simp only [Scoped, vars, List.mem_flatMap]
  constructor
  · exact fun holds part own x used => holds x ⟨part, own, used⟩
  · rintro holds x ⟨part, own, used⟩
    exact holds part own x used

@[simp]
theorem scoped_var {x : Local} :
    (var x).Scoped sees visible ↔ ∃ settable, sees visible ⟨x, settable⟩ := by
  simp [Scoped, Expr.vars, nodes, var?]

@[simp]
theorem scoped_lit {l : Literal} : (lit l).Scoped sees visible := nofun

@[simp]
theorem scoped_int {v : Int} {kind : IntKind} : (int v kind).Scoped sees visible := nofun

@[simp]
theorem scoped_read {p : Primitive} : (read p).Scoped sees visible := nofun

@[simp]
theorem scoped_enumValue {type name : String} : (enumValue type name).Scoped sees visible := nofun

@[simp]
theorem scoped_absent : absent.Scoped sees visible := nofun

@[simp]
theorem scoped_newList : newList.Scoped sees visible := nofun

@[simp]
theorem scoped_newMap : newMap.Scoped sees visible := nofun

@[simp]
theorem scoped_callDecode {codec : String} : (callDecode codec).Scoped sees visible := nofun

@[simp]
theorem scoped_place {x : Local} :
    (place x).Scoped sees visible ↔ ∃ settable, sees visible ⟨x, settable⟩ := by
  simp [place, scoped_iff_children (e := .deref (.var x)) rfl, children]

@[simp]
theorem scoped_borrow {e : Expr} : (borrow e).Scoped sees visible ↔ e.Scoped sees visible := by
  simp [scoped_iff_children (e := .borrow e) rfl, children]

@[simp]
theorem scoped_field {e : Expr} {name : String} :
    (field e name).Scoped sees visible ↔ e.Scoped sees visible := by
  simp [scoped_iff_children (e := .field e name) rfl, children]

@[simp]
theorem scoped_cast {e : Expr} {kind : IntKind} :
    (cast e kind).Scoped sees visible ↔ e.Scoped sees visible := by
  simp [scoped_iff_children (e := .cast e kind) rfl, children]

@[simp]
theorem scoped_present {e : Expr} : (present e).Scoped sees visible ↔ e.Scoped sees visible := by
  simp [scoped_iff_children (e := .present e) rfl, children]

@[simp]
theorem scoped_isPresent {e : Expr} :
    (isPresent e).Scoped sees visible ↔ e.Scoped sees visible := by
  simp [scoped_iff_children (e := .isPresent e) rfl, children]

@[simp]
theorem scoped_len {e : Expr} : (len e).Scoped sees visible ↔ e.Scoped sees visible := by
  simp [scoped_iff_children (e := .len e) rfl, children]

@[simp]
theorem scoped_fromId {type : String} {e : Expr} :
    (fromId type e).Scoped sees visible ↔ e.Scoped sees visible := by
  simp [scoped_iff_children (e := .fromId type e) rfl, children]

@[simp]
theorem scoped_toId {type : String} {e : Expr} :
    (toId type e).Scoped sees visible ↔ e.Scoped sees visible := by
  simp [scoped_iff_children (e := .toId type e) rfl, children]

@[simp]
theorem scoped_binary {op : BinOp} {a b : Expr} : (binary op a b).Scoped sees visible ↔
    a.Scoped sees visible ∧ b.Scoped sees visible := by
  simp [scoped_iff_children (e := .binary op a b) rfl, children]

@[simp]
theorem scoped_pair {a b : Expr} : (pair a b).Scoped sees visible ↔
    a.Scoped sees visible ∧ b.Scoped sees visible := by
  simp [scoped_iff_children (e := .pair a b) rfl, children]

@[simp]
theorem scoped_cond {c t o : Expr} : (cond c t o).Scoped sees visible ↔
    c.Scoped sees visible ∧ t.Scoped sees visible ∧ o.Scoped sees visible := by
  simp [scoped_iff_children (e := .cond c t o) rfl, children]

@[simp]
theorem scoped_struct {type : String} {fields : List (String × Expr)} :
    (struct type fields).Scoped sees visible ↔ ∀ f ∈ fields, f.2.Scoped sees visible := by
  rw [scoped_iff_children rfl, children]
  exact List.forall_mem_map

@[simp]
theorem scoped_variant {type name : String} {payload : Option Expr} :
    (variant type name payload).Scoped sees visible ↔
      ∀ e, payload = some e → e.Scoped sees visible := by
  cases payload <;> simp [scoped_iff_children (e := .variant type name _) rfl, children]

@[simp]
theorem scoped_call {path : String} {args : List Expr} {fallible : Bool} :
    (call path args fallible).Scoped sees visible ↔ ∀ e ∈ args, e.Scoped sees visible := by
  simp [scoped_iff_children (e := .call path args fallible) rfl, children]

end Scoped

end Expr

namespace Stmt

/-- The binding that a statement sets or adds to. -/
def targetVar? : Stmt → Option Local
  | .assign x _ | .push x _ => some x
  | _ => none

/-- What a statement puts in force for the statements after it. -/
def opened : Stmt → List Binder
  | .bind x mutable init => [⟨x, mutable || init.isNone⟩]
  | _ => []

/-- The blocks of a statement, each with what the statement puts in force for it. -/
def inner : Stmt → List (List Binder × List Stmt)
  | .branch _ yes no => [([], yes), ([], no)]
  | .times _ body => [([], body)]
  | .ifPresent x _ body | .forEach x _ body => [([.fixed x], body)]
  | .forEachPair key value _ body => [([.fixed key, .fixed value], body)]
  | .select _ arms _ => arms.map fun arm => (arm.1.binding?.toList.map .fixed, arm.2)
  | _ => []

/-- Every binding that the statements use or set is in force where they do so. `sees` says how an
occurrence finds its binding among those in force, innermost first. -/
inductive Scoped (sees : List Binder → Binder → Prop) : List Binder → List Stmt → Prop where
  | nil {visible : List Binder} : Scoped sees visible []
  | cons {visible : List Binder} {s : Stmt} {rest : List Stmt}
      (exprs : ∀ e ∈ s.exprs, e.Scoped sees visible)
      (target : ∀ x, s.targetVar? = some x → sees visible ⟨x, true⟩)
      (inner : ∀ block ∈ s.inner, Scoped sees (block.1 ++ visible) block.2)
      (later : Scoped sees (s.opened ++ visible) rest) : Scoped sees visible (s :: rest)

/-- What a statement introduces, for the statements after it and for its blocks. -/
def introduces (s : Stmt) : List Binder := s.opened ++ s.inner.flatMap (·.1)

/-- Everything that statements introduce, in all their blocks. -/
def introduced (stmts : List Stmt) : List Binder := (flattenBlock stmts).flatMap introduces

@[simp]
theorem introduced_nil : introduced [] = [] := rfl

theorem blocks_eq_inner (s : Stmt) : s.blocks = s.inner.map (·.2) := by
  cases s <;> simp [blocks, inner]

theorem introduced_cons (s : Stmt) (rest : List Stmt) : introduced (s :: rest) =
    s.introduces ++ (s.blocks.flatMap introduced ++ introduced rest) := by
  simp only [introduced, flattenBlock_cons, List.flatMap_cons, List.flatMap_append]
  rw [List.flatMap_assoc]
  rfl

@[simp]
theorem introduced_append (front back : List Stmt) :
    introduced (front ++ back) = introduced front ++ introduced back := by
  simp [introduced, flattenBlock_append]

@[simp]
theorem introduced_eval (e : Expr) : introduced [.eval e] = [] := rfl

@[simp]
theorem introduced_bind (x : Local) (m : Bool) (init : Option Expr) :
    introduced [.bind x m init] = [⟨x, m || init.isNone⟩] := rfl

@[simp]
theorem introduced_assign (x : Local) (e : Expr) : introduced [.assign x e] = [] := rfl

@[simp]
theorem introduced_push (x : Local) (e : Expr) : introduced [.push x e] = [] := rfl

@[simp]
theorem introduced_write (p : Primitive) (e : Expr) : introduced [.write p e] = [] := rfl

@[simp]
theorem introduced_writeCodec (codec : String) (e : Expr) :
    introduced [.writeCodec codec e] = [] := rfl

@[simp]
theorem introduced_fail (f : Failure) : introduced [.fail f] = [] := rfl

@[simp]
theorem introduced_branch (e : Expr) (yes no : List Stmt) :
    introduced [.branch e yes no] = introduced yes ++ introduced no := by
  simp [introduced_cons, introduces, opened, inner, blocks]

@[simp]
theorem introduced_times (e : Expr) (body : List Stmt) :
    introduced [.times e body] = introduced body := by
  simp [introduced_cons, introduces, opened, inner, blocks]

@[simp]
theorem introduced_ifPresent (x : Local) (e : Expr) (body : List Stmt) :
    introduced [.ifPresent x e body] = .fixed x :: introduced body := by
  simp [introduced_cons, introduces, opened, inner, blocks]

@[simp]
theorem introduced_forEach (x : Local) (e : Expr) (body : List Stmt) :
    introduced [.forEach x e body] = .fixed x :: introduced body := by
  simp [introduced_cons, introduces, opened, inner, blocks]

@[simp]
theorem introduced_forEachPair (key value : Local) (e : Expr) (body : List Stmt) :
    introduced [.forEachPair key value e body] = .fixed key :: .fixed value :: introduced body := by
  simp [introduced_cons, introduces, opened, inner, blocks]

/-- What is in force after statements. -/
def after (visible : List Binder) (stmts : List Stmt) : List Binder :=
  stmts.foldl (fun visible s => s.opened ++ visible) visible

theorem scoped_append {sees : List Binder → Binder → Prop} {visible : List Binder}
    {front back : List Stmt} : Scoped sees visible (front ++ back) ↔
      Scoped sees visible front ∧ Scoped sees (after visible front) back := by
  induction front generalizing visible with
  | nil => exact ⟨fun holds => ⟨.nil, holds⟩, And.right⟩
  | cons s rest ih =>
    constructor
    · rintro (_ | ⟨exprs, target, inner, later⟩)
      obtain ⟨first, second⟩ := ih.mp later
      exact ⟨.cons exprs target inner first, second⟩
    · rintro ⟨_ | ⟨exprs, target, inner, later⟩, second⟩
      exact .cons exprs target inner (ih.mpr ⟨later, second⟩)

theorem mem_after_of_mem {visible : List Binder} {stmts : List Stmt} {b : Binder}
    (member : b ∈ visible) : b ∈ after visible stmts := by
  induction stmts generalizing visible with
  | nil => exact member
  | cons s rest ih => exact ih (List.mem_append_right _ member)

theorem mem_of_mem_after {visible : List Binder} {stmts : List Stmt} {b : Binder}
    (member : b ∈ after visible stmts) : b ∈ visible ∨ b ∈ introduced stmts := by
  induction stmts generalizing visible with
  | nil => exact .inl member
  | cons s rest ih =>
    rw [introduced_cons]
    rcases ih member with here | later
    · rcases List.mem_append.mp here with opened | earlier
      · exact .inr (List.mem_append_left _ (List.mem_append_left _ opened))
      · exact .inl earlier
    · exact .inr (List.mem_append_right _ (List.mem_append_right _ later))

/-! ### Fewer bindings in force -/

theorem mem_uses_of_exprs {s : Stmt} {rest : List Stmt} {e : Expr} {x : Nat} (own : e ∈ s.exprs)
    (used : x ∈ e.locals) : x ∈ uses (s :: rest) := by
  rw [uses_cons]
  exact List.mem_append_left _ (List.mem_append_left _
    (List.mem_append_left _ (List.mem_flatMap.mpr ⟨e, own, used⟩)))

theorem mem_uses_of_inner {s : Stmt} {rest : List Stmt} {block : List Binder × List Stmt} {x : Nat}
    (own : block ∈ s.inner) (used : x ∈ uses block.2) : x ∈ uses (s :: rest) := by
  rw [uses_cons]
  refine List.mem_append_left _ (List.mem_append_right _ (List.mem_flatMap.mpr ⟨block.2, ?_, used⟩))
  rw [blocks_eq_inner]
  exact List.mem_map_of_mem own

theorem mem_uses_of_later {s : Stmt} {rest : List Stmt} {x : Nat} (used : x ∈ uses rest) :
    x ∈ uses (s :: rest) := by
  rw [uses_cons]
  exact List.mem_append_right _ used

/-- What is not used and cannot be set need not be in force. -/
theorem Scoped.narrow {visible : List Binder} {stmts : List Stmt}
    (holds : Scoped Binder.Among visible stmts) {visible' : List Binder}
    (kept : ∀ b ∈ visible, b ∈ visible' ∨ b.settable = false ∧ b.var.id ∉ uses stmts) :
    Scoped Binder.Among visible' stmts := by
  induction holds generalizing visible' with
  | nil => exact .nil
  | @cons visible s rest exprs target inner later ihInner ihLater =>
    -- A binding that goes is not used here, so every occurrence is of one that stays.
    refine .cons ?_ ?_ ?_ ?_
    · intro e own x used
      obtain ⟨settable, seen⟩ := exprs e own x used
      rcases kept _ seen with there | ⟨_, unused⟩
      · exact ⟨settable, there⟩
      · exact absurd (mem_uses_of_exprs own (Expr.mem_locals_of_vars used)) unused
    · intro x set
      rcases kept _ (target x set) with there | ⟨other, _⟩
      · exact there
      · cases other
    · intro block own
      refine ihInner block own fun b member => ?_
      rcases List.mem_append.mp member with new | old
      · exact .inl (List.mem_append_left _ new)
      · exact (kept b old).imp (List.mem_append_right _)
          (And.imp_right fun unused used => unused (mem_uses_of_inner own used))
    · refine ihLater fun b member => ?_
      rcases List.mem_append.mp member with new | old
      · exact .inl (List.mem_append_left _ new)
      · exact (kept b old).imp (List.mem_append_right _)
          (And.imp_right fun unused used => unused (mem_uses_of_later used))

/-- More may be in force. -/
theorem Scoped.widen {visible visible' : List Binder} {stmts : List Stmt}
    (holds : Scoped Binder.Among visible stmts) (wider : ∀ b ∈ visible, b ∈ visible') :
    Scoped Binder.Among visible' stmts :=
  holds.narrow fun b member => .inl (wider b member)

/-! ### Replacing -/

theorem opened_subst (r : Expr.Replacement) (s : Stmt) : (s.subst r).opened = s.opened := by
  cases s with
  | bind x mutable init => cases init <;> rfl
  | _ => rfl

theorem targetVar?_subst (r : Expr.Replacement) (s : Stmt) :
    (s.subst r).targetVar? = s.targetVar? := by
  cases s with
  | bind x mutable init => cases init <;> rfl
  | _ => rfl

theorem exprs_subst (r : Expr.Replacement) (s : Stmt) :
    (s.subst r).exprs = s.exprs.map (·.subst r) := by
  have failure (f : Failure) : (f.subst r).exprs = f.exprs.map (·.subst r) := by
    cases f <;> rfl
  cases s with
  | bind x mutable init => cases init <;> rfl
  | fail f => exact failure f
  | select e arms fallback =>
    cases fallback with
    | none => rfl
    | some f => simp [subst, exprs, failure]
  | _ => rfl

theorem inner_subst (r : Expr.Replacement) (s : Stmt) :
    (s.subst r).inner = s.inner.map fun block => (block.1, substBlock r block.2) := by
  cases s with
  | bind x mutable init => cases init <;> rfl
  | select e arms fallback => simp [subst, inner, substArms_eq]
  | _ => rfl

theorem introduces_subst (r : Expr.Replacement) (s : Stmt) :
    (s.subst r).introduces = s.introduces := by
  rw [introduces, opened_subst, inner_subst, List.flatMap_map]
  rfl

@[simp]
theorem introduced_substBlock (r : Expr.Replacement) (stmts : List Stmt) :
    introduced (substBlock r stmts) = introduced stmts := by
  simp [introduced, flattenBlock_subst, List.flatMap_map, introduces_subst]

/-- A binding makes way for an expression over what else is in force. -/
theorem Scoped.subst {r : Expr.Replacement} {visible : List Binder} {stmts : List Stmt}
    (holds : Scoped Binder.Among visible stmts) {visible' : List Binder}
    (kept : ∀ b ∈ visible, b ∈ visible' ∨ b.settable = false ∧ b.var.id = r.binding)
    (image : r.image.Scoped Binder.Among visible') :
    Scoped Binder.Among visible' (substBlock r stmts) := by
  induction holds generalizing visible' with
  | nil => exact .nil
  | @cons visible s rest exprs target inner later ihInner ihLater =>
    -- Both hypotheses hold in every block inside, where `new` is in force as well.
    have wider (new : List Binder) : r.image.Scoped Binder.Among (new ++ visible') := by
      intro x used
      obtain ⟨settable, seen⟩ := image x used
      exact ⟨settable, List.mem_append_right _ seen⟩
    have keptUnder (new : List Binder) : ∀ b ∈ new ++ visible,
        b ∈ new ++ visible' ∨ b.settable = false ∧ b.var.id = r.binding := by
      intro b member
      rcases List.mem_append.mp member with here | old
      · exact .inl (List.mem_append_left _ here)
      · exact (kept b old).imp_left (List.mem_append_right _)
    refine .cons ?_ ?_ ?_ ?_
    · rw [exprs_subst]
      intro _ replaced x used
      obtain ⟨e, own, rfl⟩ := List.mem_map.mp replaced
      -- What is read after replacing was read before, or is read by the image.
      rcases Expr.mem_vars_subst used with ⟨used, other⟩ | used
      · obtain ⟨settable, seen⟩ := exprs e own x used
        rcases kept _ seen with there | ⟨_, same⟩
        · exact ⟨settable, there⟩
        · exact absurd same other
      · exact image x used
    · rw [targetVar?_subst]
      intro x set
      rcases kept _ (target x set) with there | ⟨other, _⟩
      · exact there
      · cases other
    · rw [inner_subst]
      intro _ replaced
      obtain ⟨block, own, rfl⟩ := List.mem_map.mp replaced
      exact ihInner block own (keptUnder block.1) (wider block.1)
    · rw [opened_subst]
      exact ihLater (keptUnder s.opened) (wider s.opened)

/-! ### What is set -/

/-- What is set was introduced so that it may be set. -/
theorem Scoped.settable_of_assigned {visible : List Binder} {stmts : List Stmt}
    (holds : Scoped Binder.Among visible stmts) {i : Nat} (set : i ∈ assigned stmts) :
    ∃ b, (b ∈ visible ∨ b ∈ introduced stmts) ∧ b.settable = true ∧ b.var.id = i := by
  induction holds with
  | nil => cases set
  | @cons visible s rest exprs target inner later ihInner ihLater =>
    rw [introduced_cons]
    simp only [assigned_cons, sets, List.mem_append, List.mem_flatMap] at set
    -- It is set by the statement itself, in one of its blocks, or later.
    rcases set with (here | ⟨_, among, set⟩) | set
    · obtain ⟨x, own, rfl⟩ : ∃ x, s.targetVar? = some x ∧ x.id = i := by
        cases s <;> simp_all [target?, targetVar?]
      exact ⟨_, .inl (target x own), rfl, rfl⟩
    · rw [blocks_eq_inner] at among
      obtain ⟨block, own, rfl⟩ := List.mem_map.mp among
      obtain ⟨b, place, rest⟩ := ihInner block own set
      refine ⟨b, ?_, rest⟩
      rcases place with here | deeper
      · rcases List.mem_append.mp here with new | old
        · exact .inr (List.mem_append_left _ (List.mem_append_right _
            (List.mem_flatMap.mpr ⟨block, own, new⟩)))
        · exact .inl old
      · refine .inr (List.mem_append_right _ (List.mem_append_left _
          (List.mem_flatMap.mpr ⟨block.2, ?_, deeper⟩)))
        rw [blocks_eq_inner]
        exact List.mem_map_of_mem own
    · obtain ⟨b, place, rest⟩ := ihLater set
      refine ⟨b, ?_, rest⟩
      rcases place with here | later
      · rcases List.mem_append.mp here with new | old
        · exact .inr (List.mem_append_left _ (List.mem_append_left _ new))
        · exact .inl old
      · exact .inr (List.mem_append_right _ (List.mem_append_right _ later))

/-- What statements introduce has numbers of its own. -/
structure Apart (visible : List Binder) (stmts : List Stmt) : Prop where
  distinct : ((introduced stmts).map (·.var.id)).Nodup
  fresh : ∀ b ∈ visible, ∀ c ∈ introduced stmts, b.var.id ≠ c.var.id

theorem Apart.sublist {visible : List Binder} {stmts stmts' : List Stmt}
    (apart : Apart visible stmts) (fewer : (introduced stmts').Sublist (introduced stmts)) :
    Apart visible stmts' :=
  ⟨apart.distinct.sublist (fewer.map _),
    fun b member c new => apart.fresh b member c (fewer.subset new)⟩

/-- A binding that keeps its value is not set. -/
theorem Scoped.unset {visible : List Binder} {stmts : List Stmt}
    (holds : Scoped Binder.Among visible stmts) (apart : Apart visible stmts) {x : Local}
    (member : Binder.fixed x ∈ introduced stmts) : x.id ∉ assigned stmts := by
  intro set
  obtain ⟨b, place, settable, same⟩ := holds.settable_of_assigned set
  rcases place with visible | new
  · exact apart.fresh b visible _ member same
  · have equal := List.inj_on_of_nodup_map apart.distinct new member same
    rw [equal] at settable
    cases settable

end Stmt

/-! ### Elision -/

/-- The statements of a block, with its result evaluated at the end. -/
def Block.body (b : Block) : List Stmt := b.stmts ++ [.eval b.result]

@[simp]
theorem Block.introduced_body (b : Block) : Stmt.introduced b.body = Stmt.introduced b.stmts := by
  simp [body]

theorem Block.scoped_body {sees : List Binder → Binder → Prop} {visible : List Binder} {b : Block} :
    Stmt.Scoped sees visible b.body ↔ Stmt.Scoped sees visible b.stmts ∧
      b.result.Scoped sees (Stmt.after visible b.stmts) := by
  refine Stmt.scoped_append.trans (and_congr_right fun _ => ⟨?_, fun seen => ?_⟩)
  · rintro (_ | ⟨exprs, _, _, _⟩)
    exact exprs _ (by simp [Stmt.exprs])
  · exact .cons (by simpa [Stmt.exprs] using seen) nofun nofun .nil

theorem Block.uses_body (b : Block) : Stmt.uses b.body = b.uses := by
  simp [body, uses, Stmt.uses_cons]

theorem Block.assigned_body (b : Block) : Stmt.assigned b.body = Stmt.assigned b.stmts := by
  simp [body, Stmt.assigned_cons, Stmt.sets, Stmt.target?, Stmt.blocks]

namespace Stmt

/-- Unused bindings can be dropped. -/
theorem Scoped.dropUnused {used : List Nat} {visible : List Binder} {stmts tail : List Stmt}
    (holds : Scoped Binder.Among visible (stmts ++ tail))
    (covered : ∀ i ∈ uses (stmts ++ tail), i ∈ used) :
    Scoped Binder.Among visible (stmts.flatMap (·.dropUnused used) ++ tail) := by
  induction stmts generalizing visible with
  | nil => exact holds
  | cons s rest ih =>
    have covered' : ∀ i ∈ uses (rest ++ tail), i ∈ used :=
      fun i member => covered i (mem_uses_of_later member)
    obtain _ | ⟨exprs, target, inner, later⟩ := holds
    have kept : Scoped Binder.Among visible (s :: (rest.flatMap (·.dropUnused used) ++ tail)) :=
      .cons exprs target inner (ih later covered')
    rw [List.flatMap_cons, List.append_assoc]
    unfold Stmt.dropUnused
    split
    case h_2 => exact kept
    case h_1 x init found =>
      cases eq_bind_of_initialised found
      split
      case isTrue => exact kept
      case isFalse unused =>
        have unused : x.id ∉ uses (rest ++ tail) := fun member =>
          unused (by simpa using covered' x.id member)
        have without : Scoped Binder.Among visible (rest ++ tail) := by
          refine later.narrow fun b member => ?_
          rcases List.mem_cons.mp member with rfl | old
          · exact .inr ⟨rfl, unused⟩
          · exact .inl old
        split
        · exact .cons exprs nofun nofun (ih without covered')
        · exact ih without covered'

theorem introduced_dropUnused (used : List Nat) (stmts : List Stmt) :
    (introduced (stmts.flatMap (·.dropUnused used))).Sublist (introduced stmts) := by
  induction stmts with
  | nil => exact .slnil
  | cons s rest ih =>
    rw [List.flatMap_cons, introduced_append, introduced_cons, ← List.append_assoc]
    refine List.Sublist.append ?_ ih
    have whole : s.introduces ++ s.blocks.flatMap introduced = introduced [s] := by
      simp [introduced_cons]
    rw [whole]
    unfold Stmt.dropUnused
    split
    · split
      · exact List.Sublist.refl _
      · split <;> exact List.nil_sublist _
    · exact List.Sublist.refl _

theorem fixed_mem_introduced {x : Local} {init : Expr} {front back : List Stmt} :
    Binder.fixed x ∈ introduced (front ++ .bind x false (some init) :: back) := by
  rw [introduced_append, introduced_cons]
  exact List.mem_append_right _ (List.mem_append_left _ (List.mem_append_left _ (by
    simp [opened, Binder.fixed])))

/-- A binding makes way for its initial value in what follows. -/
theorem Scoped.replace {visible : List Binder} {front back : List Stmt} {x : Local} {init : Expr}
    (holds : Scoped Binder.Among visible (front ++ .bind x false (some init) :: back)) :
    Scoped Binder.Among visible (front ++ substBlock ⟨x.id, init⟩ back) := by
  obtain ⟨first, _ | ⟨exprs, _, _, later⟩⟩ := scoped_append.mp holds
  have image : init.Scoped Binder.Among (after visible front) := exprs init (by simp [Stmt.exprs])
  refine scoped_append.mpr ⟨first, later.subst (fun b member => ?_) image⟩
  rcases List.mem_cons.mp member with rfl | old
  · exact .inr ⟨rfl, rfl⟩
  · exact .inl old

theorem introduced_replace (front back : List Stmt) (x : Local) (init : Expr) :
    (introduced (front ++ substBlock ⟨x.id, init⟩ back)).Sublist
      (introduced (front ++ .bind x false (some init) :: back)) := by
  rw [introduced_append, introduced_append, introduced_substBlock, introduced_cons]
  refine (List.Sublist.refl _).append ?_
  exact (List.sublist_append_right _ _).trans (List.sublist_append_right _ _)

end Stmt

namespace Block

theorem scoped_dropRounds {visible : List Binder} (fuel : Nat) (b : Block)
    (holds : Stmt.Scoped Binder.Among visible b.body) :
    Stmt.Scoped Binder.Among visible (b.dropRounds fuel).body ∧
      (Stmt.introduced (b.dropRounds fuel).stmts).Sublist (Stmt.introduced b.stmts) := by
  induction fuel generalizing b with
  | zero => exact ⟨holds, List.Sublist.refl _⟩
  | succ fuel ih =>
    rw [dropRounds]
    split
    case isFalse => exact ⟨holds, List.Sublist.refl _⟩
    case isTrue =>
      have covered : ∀ i ∈ Stmt.uses b.body, i ∈ b.uses := fun i member => b.uses_body ▸ member
      have dropped := Stmt.Scoped.dropUnused holds covered
      obtain ⟨scopes, fewer⟩ := ih ⟨_, b.result⟩ dropped
      exact ⟨scopes, fewer.trans (Stmt.introduced_dropUnused b.uses b.stmts)⟩

/-- Forwarding replaces the binding wherever it occurs. -/
theorem body_forwardInto {x : Local} {init : Expr} {b b' : Block}
    (unset : x.id ∉ Stmt.assigned b.stmts) (once : b.uses.count x.id ≤ 1)
    (forwarded : forwardInto x init b = some b') :
    b'.body = Stmt.substBlock ⟨x.id, init⟩ b.body := by
  obtain ⟨stmts, result⟩ := b
  have split := Probe.splitAtMention_eq x.id stmts unset
  simp only [Block.uses] at once
  simp only [forwardInto] at forwarded
  split at forwarded
  case h_1 before s after found =>
    rw [found] at split
    obtain ⟨rfl, unused⟩ := split
    split at forwarded
    case isTrue => cases forwarded
    case isFalse =>
    obtain ⟨s', replaced, rfl⟩ := Option.map_eq_some_iff.mp forwarded
    rw [Stmt.assigned_append, Stmt.assigned_cons, List.mem_append, List.mem_append, not_or,
      not_or] at unset
    rw [Stmt.uses_append, Stmt.uses_cons, List.append_assoc, List.append_assoc] at once
    have once := Expr.count_right_le once
    rw [s.substFirst_eq ⟨x.id, init⟩ unset.2.1 (Expr.count_left_le once)] at replaced
    obtain ⟨member, rfl⟩ := Probe.eq_of_replacedIn replaced
    -- The only use is in `s`: nothing before or after it has anything to replace.
    have later := Expr.not_mem_right once member
    rw [List.mem_append, not_or] at later
    simp [body, Stmt.substBlock, Stmt.subst,
      Stmt.substBlock_of_not_mem ⟨x.id, init⟩ before unused,
      Stmt.substBlock_of_not_mem ⟨x.id, init⟩ after later.1,
      result.subst_of_not_mem ⟨x.id, init⟩ later.2]
  case h_2 found =>
    rw [found] at split
    split at forwarded
    case isTrue => cases forwarded
    case isFalse =>
    obtain ⟨result', replaced, rfl⟩ := Option.map_eq_some_iff.mp forwarded
    rw [result.substFirst_eq ⟨x.id, init⟩ (Expr.count_right_le once)] at replaced
    obtain ⟨_, rfl⟩ := Probe.eq_of_replacedIn replaced
    simp [body, Stmt.substBlock, Stmt.subst, Stmt.substBlock_of_not_mem ⟨x.id, init⟩ stmts split]

theorem scoped_forwardFrom {visible : List Binder} (before : List Stmt) (b : Block)
    (holds : Stmt.Scoped Binder.Among visible (before.reverse ++ b.body))
    (apart : Stmt.Apart visible (before.reverse ++ b.body)) :
    Stmt.Scoped Binder.Among visible (forwardFrom before b).body ∧
      (Stmt.introduced (forwardFrom before b).body).Sublist
        (Stmt.introduced (before.reverse ++ b.body)) := by
  induction before generalizing b with
  | nil => exact ⟨holds, List.Sublist.refl _⟩
  | cons s before ih =>
    rw [List.reverse_cons, List.append_assoc, List.singleton_append] at holds apart ⊢
    have kept := ih ⟨s :: b.stmts, b.result⟩ holds apart
    simp only [forwardFrom]
    split
    case h_2 => exact kept
    case h_1 x init found =>
      split
      case isFalse => exact kept
      case isTrue fits =>
        cases forwarded : forwardInto x init b with
        | none => exact kept
        | some b' =>
          cases Stmt.eq_bind_of_initialised found
          simp only [Bool.and_eq_true, Bool.not_eq_true', beq_iff_eq] at fits
          -- With one use and nothing that sets it, forwarding is replacing everywhere.
          have once : b.uses.count x.id ≤ 1 := by
            simp only [Block.uses, Stmt.uses_cons, List.count_append] at fits ⊢
            omega
          have unset : x.id ∉ Stmt.assigned b.stmts := by
            have nowhere := holds.unset apart Stmt.fixed_mem_introduced
            simp only [Stmt.assigned_append, Stmt.assigned_cons, List.mem_append, not_or,
              b.assigned_body] at nowhere
            exact nowhere.2.2
          have moved := body_forwardInto unset once forwarded
          have fewer := Stmt.introduced_replace before.reverse b.body x init
          rw [← moved] at fewer
          obtain ⟨scopes, fewer'⟩ := ih b' (moved ▸ holds.replace) (apart.sublist fewer)
          exact ⟨scopes, fewer'.trans fewer⟩

theorem scoped_inlineFrom {visible : List Binder} (uses : List Nat) (before : List Stmt)
    (result : Expr) (holds : Stmt.Scoped Binder.Among visible (Block.body ⟨before.reverse, result⟩))
    (counted : ∀ y, (Stmt.uses before.reverse ++ result.locals).count y ≤ uses.count y) :
    Stmt.Scoped Binder.Among visible (inlineFrom uses before result).body ∧
      (Stmt.introduced (inlineFrom uses before result).stmts).Sublist
        (Stmt.introduced before.reverse) := by
  induction before generalizing result with
  | nil => exact ⟨holds, List.Sublist.refl _⟩
  | cons s before ih =>
    rw [inlineFrom]
    split
    case h_2 => exact ⟨holds, List.Sublist.refl _⟩
    case h_1 x init found =>
      split
      case isFalse => exact ⟨holds, List.Sublist.refl _⟩
      case isTrue fits =>
        cases Stmt.eq_bind_of_initialised found
        simp only [Bool.and_eq_true, Bool.not_eq_true', beq_iff_eq, Expr.mentions_iff] at fits
        obtain ⟨⟨single, used⟩, _⟩ := fits
        rw [List.reverse_cons] at holds counted ⊢
        -- The counts are those of the whole block: each round only lowers the counts at hand.
        obtain ⟨once, counted'⟩ := Probe.count_inlined counted single used
        rw [result.substFirst_eq ⟨x.id, init⟩ once, Expr.replacedIn, if_pos used, Option.getD_some]
        rw [body, List.append_assoc] at holds
        obtain ⟨scopes, fewer⟩ := ih (result.subst ⟨x.id, init⟩) holds.replace counted'
        exact ⟨scopes, fewer.trans (by simp)⟩

theorem scoped_forward {visible : List Binder} {b : Block}
    (holds : Stmt.Scoped Binder.Among visible b.body) (apart : Stmt.Apart visible b.stmts) :
    Stmt.Scoped Binder.Among visible b.forward.body ∧
      (Stmt.introduced b.forward.stmts).Sublist (Stmt.introduced b.stmts) := by
  have whole : b.stmts.reverse.reverse ++ body ⟨[], b.result⟩ = b.body := by
    rw [List.reverse_reverse]
    rfl
  have apart' : Stmt.Apart visible b.body := apart.sublist (by simp)
  have forwarded := scoped_forwardFrom b.stmts.reverse ⟨[], b.result⟩ (whole ▸ holds)
    (whole ▸ apart')
  rw [whole] at forwarded
  simp only [introduced_body] at forwarded
  exact forwarded

/-- Elision keeps a block scoped and introduces nothing. -/
theorem scoped_elide {visible : List Binder} {b : Block}
    (holds : Stmt.Scoped Binder.Among visible b.body) (apart : Stmt.Apart visible b.stmts) :
    Stmt.Scoped Binder.Among visible b.elide.body ∧
      (Stmt.introduced b.elide.stmts).Sublist (Stmt.introduced b.stmts) := by
  obtain ⟨dropped, fewer₁⟩ := scoped_dropRounds b.stmts.length b holds
  obtain ⟨forwarded, fewer₂⟩ := scoped_forward dropped (apart.sublist fewer₁)
  have inlined := scoped_inlineFrom b.dropUnused.forward.uses b.dropUnused.forward.stmts.reverse
    b.dropUnused.forward.result
    (by rw [List.reverse_reverse]; exact forwarded)
    (by rw [List.reverse_reverse]; exact fun _ => Nat.le_refl _)
  rw [List.reverse_reverse] at inlined
  exact ⟨inlined.1, (inlined.2.trans fewer₂).trans fewer₁⟩

end Block

namespace Stmt

/-! ### Names -/

theorem count_le_flatMap {α β : Type} [BEq β] [LawfulBEq β] {l : List α} {a : α} (f : α → List β)
    (member : a ∈ l) (b : β) : (f a).count b ≤ (l.flatMap f).count b := by
  obtain ⟨front, back, rfl⟩ := List.append_of_mem member
  simp only [List.flatMap_append, List.flatMap_cons, List.count_append]
  omega

/-- In a block there is no more than what was in force before and what is introduced there. -/
theorem subperm_inner {visible : List Binder} {s : Stmt} {rest : List Stmt}
    {block : List Binder × List Stmt} (own : block ∈ s.inner) :
    ((block.1 ++ visible) ++ introduced block.2).Subperm (visible ++ introduced (s :: rest)) := by
  -- The order changes, as the block's own bindings come first; so each binding is counted.
  refine List.subperm_iff_count.mpr fun b => ?_
  have new := count_le_flatMap (·.1) own b
  have deeper := count_le_flatMap (fun block => introduced block.2) own b
  simp only [introduced_cons, introduces, blocks_eq_inner, List.flatMap_map, List.count_append]
  omega

theorem subperm_later {visible : List Binder} {s : Stmt} {rest : List Stmt} :
    ((s.opened ++ visible) ++ introduced rest).Subperm (visible ++ introduced (s :: rest)) := by
  refine List.subperm_iff_count.mpr fun b => ?_
  simp only [introduced_cons, introduces, List.count_append]
  omega

/-- Where numbers and names are distinct, every occurrence is of the innermost binding with its
number, and of the innermost with its name. -/
theorem Scoped.resolves {visible : List Binder} {stmts : List Stmt}
    (holds : Scoped Binder.Among visible stmts)
    (ids : ((visible ++ introduced stmts).map (·.var.id)).Nodup)
    (names : ((visible ++ introduced stmts).map (·.var.name)).Nodup) :
    Scoped Binder.Resolves visible stmts := by
  induction holds with
  | nil => exact .nil
  | @cons visible s rest exprs target inner later ihInner ihLater =>
    have own := List.sublist_append_left visible (introduced (s :: rest))
    have found {b : Binder} (member : b ∈ visible) : Binder.Resolves visible b :=
      ⟨find?_of_distinct (ids.sublist (own.map _)) member,
        find?_of_distinct (names.sublist (own.map _)) member⟩
    refine .cons (fun e own x used => ?_) (fun x set => found (target x set))
      (fun block own => ?_) ?_
    · obtain ⟨settable, seen⟩ := exprs e own x used
      exact ⟨settable, found seen⟩
    · exact ihInner block own (distinct_of_subperm ids (subperm_inner own))
        (distinct_of_subperm names (subperm_inner own))
    · exact ihLater (distinct_of_subperm ids subperm_later)
        (distinct_of_subperm names subperm_later)

end Stmt

end WireSchema.Ir
