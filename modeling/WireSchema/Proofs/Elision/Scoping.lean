import WireSchema.Proofs.Ir.Uses

/-!
# Scoping of bodies

What the generated bodies have in common and every step of elision keeps. Binders come before uses
and initial values stay as they are, which makes the steps possible. And the parts of an expression
that are no effects cannot fail: the bindings they refer to are set, and calculations are made with
integers.
-/

namespace WireSchema

open Ir

namespace Ir.Stmt

/-! ### Order of binders -/

/-- No statement introduces a binding of an earlier one, a binding with a fixed initial value is not
set later, and what its initial value reads is not introduced later. -/
def Tidy : List Stmt → Prop
  | [] => True
  | s :: rest =>
    (∀ y ∈ s.binds, y ∉ bound rest) ∧
    (∀ x init, s.initialised? = some (x, init) →
      x.id ∉ assigned rest ∧ ∀ y ∈ init.locals, y ∉ bound rest) ∧
    Tidy rest

theorem Tidy.drop {front back : List Stmt} (tidy : Tidy (front ++ back)) : Tidy back := by
  induction front with
  | nil => exact tidy
  | cons s rest ih => exact ih tidy.2.2

theorem Tidy.apart {front back : List Stmt} (tidy : Tidy (front ++ back)) :
    ∀ y ∈ bound front, y ∉ bound back := by
  induction front with
  | nil => simp
  | cons s rest ih =>
    obtain ⟨binders, _, tail⟩ : Tidy (s :: (rest ++ back)) := tidy
    intro y member
    rw [bound_cons, List.mem_append] at member
    rcases member with here | later
    · exact fun after => binders y here (by simp [after])
    · exact ih tail y later

/-- The statements at the end may make way for others that introduce and set no more. -/
theorem Tidy.replace {front back back' : List Stmt} (tidy : Tidy (front ++ back))
    (tidy' : Tidy back') (bound_le : ∀ y ∈ bound back', y ∈ bound back)
    (assigned_le : ∀ y ∈ assigned back', y ∈ assigned back) : Tidy (front ++ back') := by
  induction front with
  | nil => exact tidy'
  | cons s rest ih =>
    obtain ⟨binders, fixed, tail⟩ : Tidy (s :: (rest ++ back)) := tidy
    have narrower (y : Nat) (absent : y ∉ bound (rest ++ back)) : y ∉ bound (rest ++ back') := by
      simp only [bound_append, List.mem_append, not_or] at absent ⊢
      exact ⟨absent.1, fun member => absent.2 (bound_le y member)⟩
    rw [List.cons_append]
    refine ⟨fun y member => narrower y (binders y member), fun x init found => ?_, ih tail⟩
    obtain ⟨unset, unbound⟩ := fixed x init found
    simp only [assigned_append, List.mem_append, not_or] at unset ⊢
    exact ⟨⟨unset.1, fun member => unset.2 (assigned_le x.id member)⟩,
      fun y read => narrower y (unbound y read)⟩

theorem initialised?_subst (r : Expr.Replacement) (s : Stmt) :
    (s.subst r).initialised? = s.initialised?.map fun (x, init) => (x, init.subst r) := by
  match s with
  | .bind _ true none | .bind _ true (some _) | .bind _ false none | .bind _ false (some _) => rfl
  | .assign _ _ | .eval _ | .write _ _ | .writeCodec _ _ | .push _ _ | .fail _ => rfl
  | .branch _ _ _ | .ifPresent _ _ _ | .times _ _ | .forEach _ _ _ | .forEachPair _ _ _ _ => rfl
  | .select _ _ _ => rfl

theorem binds_subst (r : Expr.Replacement) (s : Stmt) : (s.subst r).binds = s.binds := by
  have whole := bound_substBlock r [s]
  simpa [substBlock, bound_cons] using whole

/-- Replacing keeps the order, if nothing that the image reads is introduced later. -/
theorem Tidy.subst {r : Expr.Replacement} {stmts : List Stmt} (tidy : Tidy stmts)
    (unbound : ∀ y ∈ r.image.locals, y ∉ bound stmts) : Tidy (substBlock r stmts) := by
  induction stmts with
  | nil => exact tidy
  | cons s rest ih =>
    obtain ⟨binders, fixed, tail⟩ := tidy
    have later : ∀ y ∈ r.image.locals, y ∉ bound rest := by
      intro y read member
      exact unbound y read (by simp [bound_cons, member])
    refine ⟨?_, ?_, ih tail later⟩
    · simpa only [binds_subst, bound_substBlock] using binders
    · intro x init found
      rw [initialised?_subst, Option.map_eq_some_iff] at found
      obtain ⟨⟨x, init⟩, found, same⟩ := found
      cases same
      obtain ⟨unset, unread⟩ := fixed x init found
      simp only [assigned_substBlock, bound_substBlock]
      refine ⟨unset, fun y read => ?_⟩
      rcases Expr.mem_locals_subst read with own | image
      · exact unread y own
      · exact later y image

theorem bound_flatMap_dropUnused (used : List Nat) (stmts : List Stmt) :
    ∀ y ∈ bound (stmts.flatMap (·.dropUnused used)), y ∈ bound stmts := by
  induction stmts with
  | nil => simp
  | cons s rest ih =>
    intro y member
    rw [List.flatMap_cons, bound_append, List.mem_append] at member
    rw [bound_cons, List.mem_append]
    refine member.imp (fun here => ?_) (ih y)
    unfold dropUnused at here
    split at here
    · split at here
      · simpa [bound_cons] using here
      · split at here <;> simp [bound_cons, binds, binders, blocks] at here
    · simpa [bound_cons] using here

theorem assigned_flatMap_dropUnused (used : List Nat) (stmts : List Stmt) :
    ∀ y ∈ assigned (stmts.flatMap (·.dropUnused used)), y ∈ assigned stmts := by
  induction stmts with
  | nil => simp
  | cons s rest ih =>
    intro y member
    rw [List.flatMap_cons, assigned_append, List.mem_append] at member
    rw [assigned_cons, List.mem_append]
    refine member.imp (fun here => ?_) (ih y)
    unfold dropUnused at here
    split at here
    · split at here
      · simpa [assigned_cons] using here
      · split at here <;> simp [assigned_cons, sets, target?, blocks] at here
    · simpa [assigned_cons] using here

theorem Tidy.dropUnused (used : List Nat) {stmts : List Stmt} (tidy : Tidy stmts) :
    Tidy (stmts.flatMap (·.dropUnused used)) := by
  induction stmts with
  | nil => exact tidy
  | cons s rest ih =>
    have kept : Tidy ([s] ++ rest.flatMap (·.dropUnused used)) :=
      Tidy.replace (show Tidy ([s] ++ rest) from tidy) (ih tidy.2.2)
        (bound_flatMap_dropUnused used rest) (assigned_flatMap_dropUnused used rest)
    rw [List.flatMap_cons]
    unfold Stmt.dropUnused
    split
    · split
      · exact kept
      · split
        · refine ⟨?_, ?_, kept.2.2⟩
          · simp [binds, binders, blocks]
          · intro x init found
            cases found
        · exact kept.2.2
    · exact kept

end Ir.Stmt

namespace Ir

/-! ### Sorts of bindings -/

/-- What is known of bindings: those that are set, and those among them that hold integers. -/
structure Sorts where
  seen : List Nat := []
  ints : List Nat := []

/-- The first knows no more than the second. -/
structure Sorts.Within (Γ Δ : Sorts) : Prop where
  seen : ∀ x ∈ Γ.seen, x ∈ Δ.seen
  ints : ∀ x ∈ Γ.ints, x ∈ Δ.ints

theorem Sorts.Within.refl (Γ : Sorts) : Γ.Within Γ := ⟨fun _ known => known, fun _ known => known⟩

theorem Sorts.Within.trans {Γ Δ Θ : Sorts} (first : Γ.Within Δ) (second : Δ.Within Θ) :
    Γ.Within Θ :=
  ⟨fun x known => second.seen x (first.seen x known),
    fun x known => second.ints x (first.ints x known)⟩

namespace Expr

/-- Whether every value of the expression is an integer. -/
def isInt (Γ : Sorts) : Expr → Bool
  | .lit (.int _ _) => true
  | .read p => p.isInteger
  | .var x => Γ.ints.contains x.id
  | .binary op _ _ => op != .eq && op != .ne
  | _ => false

/-- The node by itself does not fail, unless as an effect. -/
def Safe (Γ : Sorts) : Expr → Prop
  | .var x => x.id ∈ Γ.seen
  | .binary op a b => op = .eq ∨ op = .ne ∨ a.isInt Γ = true ∧ b.isInt Γ = true
  | .cond test _ _ => test = .read .bool
  | .field _ _ | .toId _ _ | .cast _ _ | .len _ => False
  | _ => True

/-- No part of the expression fails, unless as an effect. -/
def WellSorted (Γ : Sorts) (e : Expr) : Prop := ∀ n ∈ e.nodes, n.Safe Γ

theorem isInt_mono {Γ Δ : Sorts} (within : Γ.Within Δ) {e : Expr} (int : e.isInt Γ = true) :
    e.isInt Δ = true := by
  cases e with
  | var x =>
    simp only [isInt, List.contains_iff_mem] at int ⊢
    exact within.ints x.id int
  | lit l => cases l <;> exact int
  | _ => exact int

theorem Safe.mono {Γ Δ : Sorts} (within : Γ.Within Δ) {e : Expr} (safe : e.Safe Γ) : e.Safe Δ := by
  cases e with
  | var x => exact within.seen x.id safe
  | binary op a b =>
    rcases safe with eq | ne | ⟨left, right⟩
    · exact .inl eq
    · exact .inr (.inl ne)
    · exact .inr (.inr ⟨isInt_mono within left, isInt_mono within right⟩)
  | _ => exact safe

theorem WellSorted.mono {Γ Δ : Sorts} (within : Γ.Within Δ) {e : Expr} (sorted : e.WellSorted Γ) :
    e.WellSorted Δ := fun n node => (sorted n node).mono within

theorem WellSorted.seen {Γ : Sorts} {e : Expr} (sorted : e.WellSorted Γ) :
    ∀ x ∈ e.locals, x ∈ Γ.seen := by
  intro x used
  obtain ⟨n, node, here⟩ := List.mem_filterMap.mp used
  cases n with
  | var y =>
    cases here
    exact sorted _ node
  | _ => cases here

section Nodes

variable {r : Replacement} {P : Expr → Prop}

/-- The nodes of an expression with a binding replaced satisfy `P` if those of the image do, and
those of the expression once the binding is replaced in them. -/
def Carries (r : Replacement) (P : Expr → Prop) (before after : List Expr) : Prop :=
  (∀ n ∈ before, n.localId? ≠ some r.binding → P (n.subst r)) → ∀ n ∈ after, P n

theorem Carries.append {before before' after after' : List Expr} (first : Carries r P before after)
    (second : Carries r P before' after') : Carries r P (before ++ before') (after ++ after') := by
  intro all n node
  rcases List.mem_append.mp node with early | later
  · exact first (fun n node => all n (List.mem_append_left _ node)) n early
  · exact second (fun n node => all n (List.mem_append_right _ node)) n later

theorem Carries.cons {e : Expr} {before after : List Expr} (here : e.localId? ≠ some r.binding)
    (rest : Carries r P before after) : Carries r P (e :: before) (e.subst r :: after) := by
  intro all n node
  rcases List.mem_cons.mp node with rfl | later
  · exact all e (by simp) here
  · exact rest (fun n node => all n (List.mem_cons_of_mem _ node)) n later

theorem carries_nil : Carries r P [] [] := fun _ _ node => nomatch node

mutual

theorem carries_nodes (image : ∀ n ∈ r.image.nodes, P n) : ∀ e : Expr,
    Carries r P e.nodes (e.subst r).nodes
  | .var x => by
    by_cases same : x.id = r.binding
    · intro _ n node
      rw [subst, if_pos same] at node
      exact image n node
    · have unchanged : (Expr.var x).subst r = .var x := by rw [subst, if_neg same]
      have single := (carries_nil (r := r) (P := P)).cons (e := .var x) fun here =>
        same (Option.some.inj here)
      rw [unchanged] at single ⊢
      exact single
  | .lit _ | .read _ | .enumValue _ _ | .absent | .newList | .newMap | .callDecode _ =>
    carries_nil.cons nofun
  | .deref e | .borrow e | .field e _ | .cast e _ | .present e | .isPresent e | .len e
  | .fromId _ e | .toId _ e => (carries_nodes image e).cons nofun
  | .struct _ fields => (carries_nodesFields image fields).cons nofun
  | .variant _ _ payload => (carries_nodesOption image payload).cons nofun
  | .binary _ a b | .pair a b => ((carries_nodes image a).append (carries_nodes image b)).cons nofun
  | .cond c t o =>
    (((carries_nodes image c).append (carries_nodes image t)).append (carries_nodes image o)).cons
      nofun
  | .call _ args _ => (carries_nodesList image args).cons nofun

theorem carries_nodesOption (image : ∀ n ∈ r.image.nodes, P n) : ∀ e : Option Expr,
    Carries r P (nodesOption e) (nodesOption (substOption r e))
  | none => carries_nil
  | some e => carries_nodes image e

theorem carries_nodesList (image : ∀ n ∈ r.image.nodes, P n) : ∀ es : List Expr,
    Carries r P (nodesList es) (nodesList (substList r es))
  | [] => carries_nil
  | e :: rest => (carries_nodes image e).append (carries_nodesList image rest)

theorem carries_nodesFields (image : ∀ n ∈ r.image.nodes, P n) : ∀ fields : List (String × Expr),
    Carries r P (nodesFields fields) (nodesFields (substFields r fields))
  | [] => carries_nil
  | (_, e) :: rest => (carries_nodes image e).append (carries_nodesFields image rest)

end

end Nodes

/-- What the first knows of bindings other than the replaced one, the second knows; and it knows of
the image what the first knows of the binding. -/
structure Stands (r : Replacement) (Γ Δ : Sorts) : Prop where
  seen : ∀ x ∈ Γ.seen, x ≠ r.binding → x ∈ Δ.seen
  ints : ∀ x ∈ Γ.ints, x ≠ r.binding → x ∈ Δ.ints
  image : r.image.WellSorted Δ
  int : r.binding ∈ Γ.ints → r.image.isInt Δ = true

theorem isInt_subst {r : Replacement} {Γ Δ : Sorts} (stands : Stands r Γ Δ) {e : Expr}
    (int : e.isInt Γ = true) : (e.subst r).isInt Δ = true := by
  cases e with
  | var x =>
    simp only [isInt, List.contains_iff_mem] at int
    by_cases same : x.id = r.binding
    · rw [subst, if_pos same]
      exact stands.int (same ▸ int)
    · rw [subst, if_neg same]
      simpa [isInt] using stands.ints x.id int same
  | lit l => cases l <;> exact int
  | _ => exact int

theorem Safe.subst {r : Replacement} {Γ Δ : Sorts} (stands : Stands r Γ Δ) {e : Expr}
    (safe : e.Safe Γ) (other : e.localId? ≠ some r.binding) : (e.subst r).Safe Δ := by
  cases e with
  | var x =>
    have other : x.id ≠ r.binding := fun same => other (congrArg some same)
    rw [Expr.subst, if_neg other]
    exact stands.seen x.id safe other
  | binary op a b =>
    rcases safe with eq | ne | ⟨left, right⟩
    · exact .inl eq
    · exact .inr (.inl ne)
    · exact .inr (.inr ⟨isInt_subst stands left, isInt_subst stands right⟩)
  | cond test yes no =>
    cases (safe : test = .read .bool)
    exact rfl
  | _ => exact safe

theorem WellSorted.subst {r : Replacement} {Γ Δ : Sorts} (stands : Stands r Γ Δ) {e : Expr}
    (sorted : e.WellSorted Γ) : (e.subst r).WellSorted Δ :=
  carries_nodes stands.image e fun n node other => (sorted n node).subst stands other

end Expr

namespace Stmt

/-- The bindings that a statement introduces for the statements after it. -/
def opens : Stmt → List Nat
  | .bind x _ _ => [x.id]
  | _ => []

/-- Those of them that hold an integer from then on. -/
def opensInts (Γ : Sorts) (s : Stmt) : List Nat :=
  match s.initialised? with
  | some (x, init) => if init.isInt Γ then [x.id] else []
  | none => []

/-- What is known after a statement. -/
def sorts (Γ : Sorts) (s : Stmt) : Sorts :=
  { seen := s.opens ++ Γ.seen, ints := s.opensInts Γ ++ Γ.ints }

/-- What is known after statements. -/
def sortsAfter (Γ : Sorts) (stmts : List Stmt) : Sorts := stmts.foldl sorts Γ

/-- No initial value fails, unless as an effect. -/
def WellSorted (Γ : Sorts) : List Stmt → Prop
  | [] => True
  | s :: rest =>
    (∀ x init, s.initialised? = some (x, init) → init.WellSorted Γ) ∧ WellSorted (s.sorts Γ) rest

theorem opens_subset (s : Stmt) : ∀ x ∈ s.opens, x ∈ s.binds := by
  cases s <;> simp [opens, binds, binders]

theorem mem_opensInts {Γ : Sorts} {s : Stmt} {y : Nat} :
    y ∈ s.opensInts Γ ↔
      ∃ x init, s.initialised? = some (x, init) ∧ init.isInt Γ = true ∧ y = x.id := by
  unfold opensInts
  cases s.initialised? with
  | none => simp
  | some entry =>
    obtain ⟨x, init⟩ := entry
    simp only
    constructor
    · intro member
      by_cases int : init.isInt Γ = true
      · rw [if_pos int] at member
        exact ⟨x, init, rfl, int, List.mem_singleton.mp member⟩
      · rw [if_neg int] at member
        cases member
    · rintro ⟨_, _, found, int, same⟩
      cases found
      rw [if_pos int]
      exact List.mem_singleton.mpr same

theorem ints_sortsAfter {Γ : Sorts} {stmts : List Stmt} {y : Nat}
    (known : y ∈ (sortsAfter Γ stmts).ints) : y ∈ Γ.ints ∨ y ∈ bound stmts := by
  induction stmts generalizing Γ with
  | nil => exact .inl known
  | cons s rest ih =>
    rw [bound_cons, List.mem_append]
    rcases ih known with early | later
    · rcases List.mem_append.mp early with opened | earlier
      · obtain ⟨x, init, found, _, rfl⟩ := mem_opensInts.mp opened
        cases eq_bind_of_initialised found
        exact .inr (.inl (by simp [binds, binders]))
      · exact .inl earlier
    · exact .inr (.inr later)

theorem opens_subst (r : Expr.Replacement) (s : Stmt) : (s.subst r).opens = s.opens := by
  cases s with
  | bind x isMutable init => cases init <;> rfl
  | _ => rfl

theorem sorts_mono {Γ Δ : Sorts} (within : Γ.Within Δ) (s : Stmt) :
    (s.sorts Γ).Within (s.sorts Δ) := by
  refine ⟨fun y known => ?_, fun y known => ?_⟩
  · exact (List.mem_append.mp known).elim (List.mem_append_left _) fun earlier =>
      List.mem_append_right _ (within.seen y earlier)
  · rcases List.mem_append.mp known with opened | earlier
    · obtain ⟨x, init, found, int, same⟩ := mem_opensInts.mp opened
      exact List.mem_append_left _
        (mem_opensInts.mpr ⟨x, init, found, Expr.isInt_mono within int, same⟩)
    · exact List.mem_append_right _ (within.ints y earlier)

theorem within_sorts (Γ : Sorts) (s : Stmt) : Γ.Within (s.sorts Γ) :=
  ⟨fun _ => List.mem_append_right _, fun _ => List.mem_append_right _⟩

theorem within_sortsAfter (Γ : Sorts) (stmts : List Stmt) : Γ.Within (sortsAfter Γ stmts) := by
  induction stmts generalizing Γ with
  | nil => exact .refl Γ
  | cons s rest ih => exact (within_sorts Γ s).trans (ih (s.sorts Γ))

@[simp]
theorem sortsAfter_append (Γ : Sorts) (front back : List Stmt) :
    sortsAfter Γ (front ++ back) = sortsAfter (sortsAfter Γ front) back := by
  simp [sortsAfter]

theorem WellSorted.mono {Γ Δ : Sorts} (within : Γ.Within Δ) {stmts : List Stmt}
    (sorted : WellSorted Γ stmts) : WellSorted Δ stmts := by
  induction stmts generalizing Γ Δ with
  | nil => trivial
  | cons s rest ih =>
    exact ⟨fun x init found => (sorted.1 x init found).mono within,
      ih (sorts_mono within s) sorted.2⟩

theorem wellSorted_append {Γ : Sorts} {front back : List Stmt} :
    WellSorted Γ (front ++ back) ↔ WellSorted Γ front ∧ WellSorted (sortsAfter Γ front) back := by
  induction front generalizing Γ with
  | nil => simp [WellSorted, sortsAfter]
  | cons s rest ih =>
    simp only [List.cons_append, WellSorted, ih, sortsAfter, List.foldl_cons, and_assoc]

/-- A statement with the binding replaced tells as much as the statement. -/
theorem stands_sorts {r : Expr.Replacement} {Γ Δ : Sorts} (stands : Expr.Stands r Γ Δ) {s : Stmt}
    (fresh : r.binding ∉ s.binds) : Expr.Stands r (s.sorts Γ) ((s.subst r).sorts Δ) where
  seen y known other := by
    rw [sorts, opens_subst]
    exact (List.mem_append.mp known).elim (List.mem_append_left _) fun earlier =>
      List.mem_append_right _ (stands.seen y earlier other)
  ints y known other := by
    rcases List.mem_append.mp known with opened | earlier
    · obtain ⟨x, init, found, int, same⟩ := mem_opensInts.mp opened
      refine List.mem_append_left _ (mem_opensInts.mpr ⟨x, init.subst r, ?_, ?_, same⟩)
      · rw [initialised?_subst, found]
        rfl
      · exact Expr.isInt_subst stands int
    · exact List.mem_append_right _ (stands.ints y earlier other)
  image := stands.image.mono (within_sorts Δ _)
  int known := by
    rcases List.mem_append.mp known with opened | earlier
    · obtain ⟨x, init, found, _, same⟩ := mem_opensInts.mp opened
      cases eq_bind_of_initialised found
      rw [same] at fresh
      exact absurd (by simp [binds, binders]) fresh
    · exact Expr.isInt_mono (within_sorts Δ _) (stands.int earlier)

theorem stands_sortsAfter {r : Expr.Replacement} {Γ Δ : Sorts} (stands : Expr.Stands r Γ Δ)
    {stmts : List Stmt} (fresh : r.binding ∉ bound stmts) :
    Expr.Stands r (sortsAfter Γ stmts) (sortsAfter Δ (substBlock r stmts)) := by
  induction stmts generalizing Γ Δ with
  | nil => exact stands
  | cons s rest ih =>
    rw [bound_cons, List.mem_append, not_or] at fresh
    exact ih (stands_sorts stands fresh.1) fresh.2

theorem WellSorted.subst {r : Expr.Replacement} {Γ Δ : Sorts} (stands : Expr.Stands r Γ Δ)
    {stmts : List Stmt} (fresh : r.binding ∉ bound stmts) (sorted : WellSorted Γ stmts) :
    WellSorted Δ (substBlock r stmts) := by
  induction stmts generalizing Γ Δ with
  | nil => trivial
  | cons s rest ih =>
    rw [bound_cons, List.mem_append, not_or] at fresh
    refine ⟨fun x init found => ?_, ih (stands_sorts stands fresh.1) fresh.2 sorted.2⟩
    rw [initialised?_subst, Option.map_eq_some_iff] at found
    obtain ⟨⟨y, inner⟩, found, same⟩ := found
    cases same
    exact (sorted.1 _ inner found).subst stands

/-- The initial value of a new binding stands for it. -/
theorem stands_bind {Γ : Sorts} {x : Local} {init : Expr} (sorted : init.WellSorted Γ)
    (new : x.id ∉ Γ.ints) :
    Expr.Stands ⟨x.id, init⟩ ((Stmt.bind x false (some init)).sorts Γ) Γ where
  seen y known other := by
    rcases List.mem_append.mp known with opened | earlier
    · exact absurd (List.mem_singleton.mp opened) other
    · exact earlier
  ints y known other := by
    rcases List.mem_append.mp known with opened | earlier
    · obtain ⟨_, _, found, _, same⟩ := mem_opensInts.mp opened
      cases found
      exact absurd same other
    · exact earlier
  image := sorted
  int known := by
    rcases List.mem_append.mp known with opened | earlier
    · obtain ⟨_, _, found, int, _⟩ := mem_opensInts.mp opened
      cases found
      exact int
    · exact absurd earlier new

end Stmt

/-- No part of the body that is no effect fails. -/
def Block.WellSorted (Γ : Sorts) (b : Block) : Prop :=
  Stmt.WellSorted Γ b.stmts ∧ b.result.WellSorted (Stmt.sortsAfter Γ b.stmts)

end Ir

end WireSchema
