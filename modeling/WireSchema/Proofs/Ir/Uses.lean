import WireSchema.Proofs.Ir.Substitution

/-!
# Uses, assignments and binders of statements

What a list of statements uses, sets and binds is what each statement does by itself, followed by
what its blocks do. Replacing a binding acts on the uses only.
-/

namespace WireSchema.Ir

namespace Stmt

/-! ### Statements and their blocks -/

theorem flattenArms_eq (arms : List (Pattern × List Stmt)) :
    flattenArms arms = (arms.map (·.2)).flatMap flattenBlock := by
  induction arms with
  | nil => rfl
  | cons arm rest ih =>
    obtain ⟨pattern, body⟩ := arm
    simp [flattenArms, ih]

/-- A statement stands before the statements of its blocks. -/
theorem flatten_eq (s : Stmt) : s.flatten = s :: s.blocks.flatMap flattenBlock := by
  cases s <;> simp [flatten, blocks, flattenArms_eq]

theorem flattenBlock_cons (s : Stmt) (rest : List Stmt) :
    flattenBlock (s :: rest) = s :: (s.blocks.flatMap flattenBlock ++ flattenBlock rest) := by
  simp [flattenBlock, flatten_eq]

theorem flattenBlock_append (front back : List Stmt) :
    flattenBlock (front ++ back) = flattenBlock front ++ flattenBlock back := by
  induction front with
  | nil => rfl
  | cons s rest ih => simp [flattenBlock, ih]

/-! ### Uses -/

@[simp]
theorem uses_nil : uses [] = [] := rfl

/-- The uses in a statement and its blocks. -/
def used (s : Stmt) : List Nat := s.ownUses ++ s.blocks.flatMap uses

theorem uses_cons (s : Stmt) (rest : List Stmt) : uses (s :: rest) = s.used ++ uses rest := by
  simp only [used, uses, flattenBlock_cons, List.flatMap_cons, List.flatMap_append]
  rw [List.flatMap_assoc, List.append_assoc]
  rfl

@[simp]
theorem uses_append (front back : List Stmt) : uses (front ++ back) = uses front ++ uses back := by
  simp [uses, flattenBlock_append]

/-! ### Assignments -/

@[simp]
theorem assigned_nil : assigned [] = [] := rfl

/-- The assignments in a statement and its blocks. -/
def sets (s : Stmt) : List Nat := s.target?.toList ++ s.blocks.flatMap assigned

theorem assigned_cons (s : Stmt) (rest : List Stmt) :
    assigned (s :: rest) = s.sets ++ assigned rest := by
  have blocks : (s.blocks.flatMap flattenBlock).filterMap target? = s.blocks.flatMap assigned := by
    rw [List.filterMap_flatMap]
    rfl
  simp only [sets, assigned, flattenBlock_cons, List.filterMap_cons, List.filterMap_append, blocks]
  cases s.target? <;> simp

@[simp]
theorem assigned_append (front back : List Stmt) :
    assigned (front ++ back) = assigned front ++ assigned back := by
  simp [assigned, flattenBlock_append]

/-! ### Binders -/

end Stmt

/-- The binding that a pattern sets. -/
def Pattern.binding? : Pattern → Option Local
  | .variant _ _ binding => binding
  | .lit _ | .enum _ _ => none

namespace Stmt

/-- The bindings that a statement introduces by itself. -/
def binders : Stmt → List Nat
  | .bind x _ _ | .ifPresent x _ _ | .forEach x _ _ => [x.id]
  | .forEachPair key value _ _ => [key.id, value.id]
  | .select _ arms _ => arms.flatMap fun arm => (arm.1.binding?.map (·.id)).toList
  | .assign _ _ | .eval _ | .write _ _ | .writeCodec _ _ | .branch _ _ _ => []
  | .times _ _ | .push _ _ | .fail _ => []

/-- The bindings that a list of statements introduces, one entry for each binder. -/
def bound (stmts : List Stmt) : List Nat := (flattenBlock stmts).flatMap binders

@[simp]
theorem bound_nil : bound [] = [] := rfl

/-- The binders in a statement and its blocks. -/
def binds (s : Stmt) : List Nat := s.binders ++ s.blocks.flatMap bound

theorem bound_cons (s : Stmt) (rest : List Stmt) : bound (s :: rest) = s.binds ++ bound rest := by
  simp only [binds, bound, flattenBlock_cons, List.flatMap_cons, List.flatMap_append]
  rw [List.flatMap_assoc, List.append_assoc]
  rfl

@[simp]
theorem bound_append (front back : List Stmt) :
    bound (front ++ back) = bound front ++ bound back := by
  simp [bound, flattenBlock_append]

/-- The bindings with a fixed initial value, one entry for each binder. -/
def constants (stmts : List Stmt) : List Nat :=
  (flattenBlock stmts).filterMap fun s => s.initialised?.map (·.1.id)

@[simp]
theorem constants_nil : constants [] = [] := rfl

theorem constants_cons (s : Stmt) (rest : List Stmt) :
    constants (s :: rest) =
      (s.initialised?.map (·.1.id)).toList ++ (s.blocks.flatMap constants ++ constants rest) := by
  have blocks : (s.blocks.flatMap flattenBlock).filterMap
      (fun s => s.initialised?.map (·.1.id)) = s.blocks.flatMap constants := by
    rw [List.filterMap_flatMap]
    rfl
  simp only [constants, flattenBlock_cons, List.filterMap_cons, List.filterMap_append, blocks]
  cases s.initialised? <;> simp

@[simp]
theorem constants_append (front back : List Stmt) :
    constants (front ++ back) = constants front ++ constants back := by
  simp [constants, flattenBlock_append]

theorem eq_bind_of_initialised {s : Stmt} {x : Local} {init : Expr}
    (found : s.initialised? = some (x, init)) : s = .bind x false (some init) := by
  unfold initialised? at found
  split at found
  · simp_all
  · cases found

end Stmt

/-! ### Replacing all uses in statements -/

/-- The failure with every occurrence of the replaced binding gone. -/
def Failure.subst (r : Expr.Replacement) : Failure → Failure
  | .unknownTag ty tag => .unknownTag ty (tag.subst r)
  | .literalMismatch l found => .literalMismatch l (found.subst r)
  | .unmatchedVariant ty => .unmatchedVariant ty

namespace Stmt

mutual

/-- The statement with every occurrence of the replaced binding in its expressions gone. -/
def subst (r : Expr.Replacement) : Stmt → Stmt
  | .bind y m (some e) => .bind y m (some (e.subst r))
  | .bind y m none => .bind y m none
  | .assign y e => .assign y (e.subst r)
  | .eval e => .eval (e.subst r)
  | .write p e => .write p (e.subst r)
  | .writeCodec codec e => .writeCodec codec (e.subst r)
  | .push y e => .push y (e.subst r)
  | .branch e yes no => .branch (e.subst r) (substBlock r yes) (substBlock r no)
  | .ifPresent y e body => .ifPresent y (e.subst r) (substBlock r body)
  | .times e body => .times (e.subst r) (substBlock r body)
  | .forEach y e body => .forEach y (e.subst r) (substBlock r body)
  | .forEachPair k v e body => .forEachPair k v (e.subst r) (substBlock r body)
  | .select e arms fallback =>
    .select (e.subst r) (substArms r arms) (fallback.map (Failure.subst r))
  | .fail f => .fail (f.subst r)

def substBlock (r : Expr.Replacement) : List Stmt → List Stmt
  | [] => []
  | s :: rest => subst r s :: substBlock r rest

def substArms (r : Expr.Replacement) : List (Pattern × List Stmt) → List (Pattern × List Stmt)
  | [] => []
  | (p, body) :: rest => (p, substBlock r body) :: substArms r rest

end

@[simp]
theorem substBlock_append (r : Expr.Replacement) (front back : List Stmt) :
    substBlock r (front ++ back) = substBlock r front ++ substBlock r back := by
  induction front with
  | nil => rfl
  | cons s rest ih => simp [substBlock, ih]

end Stmt

/-! ### Of at most one use, replacing the first replaces all -/

/-- The bindings of the expressions of a failure. -/
def Failure.locals (f : Failure) : List Nat := f.exprs.flatMap Expr.locals

/-- The bindings of the expressions of a failure that may be missing. -/
def Failure.localsOption (f : Option Failure) : List Nat := f.toList.flatMap Failure.locals

theorem Failure.subst_of_not_mem (r : Expr.Replacement) (f : Failure)
    (absent : r.binding ∉ f.locals) : f.subst r = f := by
  cases f with
  | unknownTag ty tag =>
    simp [Failure.subst, tag.subst_of_not_mem r (by simpa [locals, exprs] using absent)]
  | literalMismatch l found =>
    simp [Failure.subst, found.subst_of_not_mem r (by simpa [locals, exprs] using absent)]
  | unmatchedVariant ty => rfl

theorem Failure.map_subst_of_not_mem (r : Expr.Replacement) (f : Option Failure)
    (absent : r.binding ∉ localsOption f) : f.map (Failure.subst r) = f := by
  cases f with
  | none => rfl
  | some f => simp [f.subst_of_not_mem r (by simpa [localsOption] using absent)]

theorem Failure.substFirst_eq (r : Expr.Replacement) (f : Failure)
    (once : f.locals.count r.binding ≤ 1) :
    f.substFirst r = Expr.replacedIn r.binding f.locals (f.subst r) := by
  cases f with
  | unknownTag ty tag =>
    rw [substFirst, tag.substFirst_eq r (by simpa [locals, exprs] using once),
      Expr.replacedIn_map]
    simp [locals, exprs, subst]
  | literalMismatch l found =>
    rw [substFirst, found.substFirst_eq r (by simpa [locals, exprs] using once),
      Expr.replacedIn_map]
    simp [locals, exprs, subst]
  | unmatchedVariant ty => simp [substFirst, locals, exprs]

theorem Failure.bind_substFirst_eq (r : Expr.Replacement) (f : Option Failure)
    (once : (localsOption f).count r.binding ≤ 1) :
    f.bind (·.substFirst r) =
      Expr.replacedIn r.binding (localsOption f) ((f.map (Failure.subst r)).getD (.unmatchedVariant "")) := by
  cases f with
  | none => simp [localsOption]
  | some f => simpa [localsOption] using f.substFirst_eq r (by simpa [localsOption] using once)

theorem Failure.some_getD_of_mem {r : Expr.Replacement} {f : Option Failure} {other : Failure}
    (used : r.binding ∈ localsOption f) :
    some ((f.map (Failure.subst r)).getD other) = f.map (Failure.subst r) := by
  cases f with
  | none => simp [localsOption] at used
  | some f => rfl

namespace Stmt

/-! ### The parts of each statement -/

@[simp]
theorem ownUses_select (e : Expr) (arms : List (Pattern × List Stmt)) (f : Option Failure) :
    (select e arms f).ownUses = e.locals ++ Failure.localsOption f := by
  cases f <;> simp [ownUses, exprs, pushed?, Failure.localsOption, Failure.locals]

@[simp]
theorem ownUses_fail (f : Failure) : (fail f).ownUses = f.locals := by
  simp [ownUses, exprs, pushed?, Failure.locals]

/-- The uses in the bodies of arms. -/
def usesArms (arms : List (Pattern × List Stmt)) : List Nat := arms.flatMap fun arm => uses arm.2

@[simp]
theorem usesArms_nil : usesArms [] = [] := rfl

@[simp]
theorem usesArms_cons (pattern : Pattern) (body : List Stmt) (rest : List (Pattern × List Stmt)) :
    usesArms ((pattern, body) :: rest) = uses body ++ usesArms rest := rfl

@[simp]
theorem used_bind_none (x : Local) (m : Bool) : (bind x m none).used = [] := rfl

@[simp]
theorem used_bind_some (x : Local) (m : Bool) (e : Expr) :
    (bind x m (some e)).used = e.locals := by
  simp [used, ownUses, exprs, pushed?, blocks]

@[simp]
theorem used_assign (x : Local) (e : Expr) : (assign x e).used = e.locals := by
  simp [used, ownUses, exprs, pushed?, blocks]

@[simp]
theorem used_eval (e : Expr) : (eval e).used = e.locals := by
  simp [used, ownUses, exprs, pushed?, blocks]

@[simp]
theorem used_write (p : Primitive) (e : Expr) : (write p e).used = e.locals := by
  simp [used, ownUses, exprs, pushed?, blocks]

@[simp]
theorem used_writeCodec (codec : String) (e : Expr) : (writeCodec codec e).used = e.locals := by
  simp [used, ownUses, exprs, pushed?, blocks]

@[simp]
theorem used_branch (e : Expr) (yes no : List Stmt) :
    (branch e yes no).used = e.locals ++ (uses yes ++ uses no) := by
  simp [used, ownUses, exprs, pushed?, blocks]

@[simp]
theorem used_ifPresent (x : Local) (e : Expr) (body : List Stmt) :
    (ifPresent x e body).used = e.locals ++ uses body := by
  simp [used, ownUses, exprs, pushed?, blocks]

@[simp]
theorem used_times (e : Expr) (body : List Stmt) : (times e body).used = e.locals ++ uses body := by
  simp [used, ownUses, exprs, pushed?, blocks]

@[simp]
theorem used_forEach (x : Local) (e : Expr) (body : List Stmt) :
    (forEach x e body).used = e.locals ++ uses body := by
  simp [used, ownUses, exprs, pushed?, blocks]

@[simp]
theorem used_forEachPair (key value : Local) (e : Expr) (body : List Stmt) :
    (forEachPair key value e body).used = e.locals ++ uses body := by
  simp [used, ownUses, exprs, pushed?, blocks]

@[simp]
theorem used_push (x : Local) (e : Expr) : (push x e).used = e.locals ++ [x.id] := by
  simp [used, ownUses, exprs, pushed?, blocks]

@[simp]
theorem used_select (e : Expr) (arms : List (Pattern × List Stmt)) (f : Option Failure) :
    (select e arms f).used = e.locals ++ (Failure.localsOption f ++ usesArms arms) := by
  simp [used, blocks, usesArms, List.flatMap_map]

@[simp]
theorem used_fail (f : Failure) : (fail f).used = f.locals := by
  simp [used, blocks]

/-- The assignments in the bodies of arms. -/
def assignedArms (arms : List (Pattern × List Stmt)) : List Nat :=
  arms.flatMap fun arm => assigned arm.2

@[simp]
theorem assignedArms_cons (pattern : Pattern) (body : List Stmt)
    (rest : List (Pattern × List Stmt)) :
    assignedArms ((pattern, body) :: rest) = assigned body ++ assignedArms rest := rfl

theorem sets_select (e : Expr) (arms : List (Pattern × List Stmt)) (f : Option Failure) :
    (select e arms f).sets = assignedArms arms := by
  simp [sets, blocks, target?, assignedArms, List.flatMap_map]

/-! ### Replacement in statements -/

mutual

/-- Nothing happens to a statement without uses of the binding. -/
theorem subst_of_not_mem (r : Expr.Replacement) : ∀ s : Stmt, r.binding ∉ s.used → s.subst r = s
  | .bind _ _ none => fun _ => rfl
  | .bind _ _ (some e) | .assign _ e | .eval e | .write _ e | .writeCodec _ e => by
    intro absent
    simp [subst, e.subst_of_not_mem r (by simpa using absent)]
  | .push _ e => by
    intro absent
    simp only [used_push, List.mem_append, not_or] at absent
    simp [subst, e.subst_of_not_mem r absent.1]
  | .branch e yes no => by
    intro absent
    simp only [used_branch, List.mem_append, not_or] at absent
    simp [subst, e.subst_of_not_mem r absent.1, substBlock_of_not_mem r yes absent.2.1,
      substBlock_of_not_mem r no absent.2.2]
  | .ifPresent _ e body | .times e body | .forEach _ e body | .forEachPair _ _ e body => by
    intro absent
    simp only [used_ifPresent, used_times, used_forEach, used_forEachPair, List.mem_append,
      not_or] at absent
    simp [subst, e.subst_of_not_mem r absent.1, substBlock_of_not_mem r body absent.2]
  | .select e arms f => by
    intro absent
    simp only [used_select, List.mem_append, not_or] at absent
    simp [subst, e.subst_of_not_mem r absent.1, Failure.map_subst_of_not_mem r f absent.2.1,
      substArms_of_not_mem r arms absent.2.2]
  | .fail f => by
    intro absent
    simp [subst, f.subst_of_not_mem r (by simpa using absent)]

theorem substBlock_of_not_mem (r : Expr.Replacement) :
    ∀ stmts : List Stmt, r.binding ∉ uses stmts → substBlock r stmts = stmts
  | [] => fun _ => rfl
  | s :: rest => by
    intro absent
    simp only [uses_cons, List.mem_append, not_or] at absent
    simp [substBlock, subst_of_not_mem r s absent.1, substBlock_of_not_mem r rest absent.2]

theorem substArms_of_not_mem (r : Expr.Replacement) :
    ∀ arms : List (Pattern × List Stmt), r.binding ∉ usesArms arms → substArms r arms = arms
  | [] => fun _ => rfl
  | (_, body) :: rest => by
    intro absent
    simp only [usesArms_cons, List.mem_append, not_or] at absent
    simp [substArms, substBlock_of_not_mem r body absent.1, substArms_of_not_mem r rest absent.2]

end

mutual

/-- Of at most one use, replacing the first replaces all. -/
theorem substFirst_eq (r : Expr.Replacement) : ∀ s : Stmt, r.binding ∉ s.sets →
    s.used.count r.binding ≤ 1 →
    s.substFirst r = Expr.replacedIn r.binding s.used (s.subst r)
  | .bind _ _ none => fun _ _ => rfl
  | .bind _ _ (some e) | .assign _ e | .eval e | .write _ e | .writeCodec _ e => by
    intro _ once
    rw [substFirst, e.substFirst_eq r (by simpa using once), Expr.replacedIn_map]
    simp [subst]
  | .push y e => by
    intro fixed once
    have other : r.binding ≠ y.id := by
      intro same
      exact fixed (by simp [sets, target?, same])
    rw [used_push] at once
    rw [substFirst, e.substFirst_eq r (Expr.count_left_le once), Expr.replacedIn_map]
    simp [Expr.replacedIn, subst, other]
  | .branch e yes no => by
    intro fixed once
    simp only [sets, target?, blocks, Option.toList_none, List.nil_append, List.flatMap_cons,
      List.flatMap_nil, List.append_nil, List.mem_append, not_or] at fixed
    rw [used_branch] at once ⊢
    have bodies := Expr.count_right_le once
    have inner : (branch e yes no).substFirst r = (if r.binding ∈ e.locals then
        some (branch (e.subst r) yes no) else
        Expr.replacedIn r.binding (uses yes ++ uses no)
          (branch e (substBlock r yes) (substBlock r no))) := by
      by_cases test : r.binding ∈ e.locals
      · simp [Expr.replacedIn, substFirst, e.substFirst_eq r (Expr.count_left_le once), test]
      · rw [if_neg test]
        refine Expr.replacedIn_append (branch e) bodies (substBlock_of_not_mem r yes)
          (substBlock_of_not_mem r no) ?_ ?_
          <;> intro left
          <;> simp [Expr.replacedIn, substFirst, e.substFirst_eq r (Expr.count_left_le once), test,
            substFirstBlock_eq r yes fixed.1 (Expr.count_left_le bodies),
            substFirstBlock_eq r no fixed.2 (Expr.count_right_le bodies), left]
    rw [inner]
    by_cases test : r.binding ∈ e.locals
    · have bodiesFree := Expr.not_mem_right once test
      rw [List.mem_append, not_or] at bodiesFree
      simp [Expr.replacedIn, subst, test, substBlock_of_not_mem r yes bodiesFree.1,
        substBlock_of_not_mem r no bodiesFree.2]
    · simp [Expr.replacedIn, subst, test, e.subst_of_not_mem r test]
  | .ifPresent y e body => by
    intro fixed once
    have fixed : r.binding ∉ assigned body := by simpa [sets, target?, blocks] using fixed
    rw [used_ifPresent] at once ⊢
    refine Expr.replacedIn_append (ifPresent y) once (e.subst_of_not_mem r)
      (substBlock_of_not_mem r body) ?_ ?_
      <;> intro left
      <;> simp [Expr.replacedIn, substFirst, e.substFirst_eq r (Expr.count_left_le once),
        substFirstBlock_eq r body fixed (Expr.count_right_le once), left]
  | .times e body => by
    intro fixed once
    have fixed : r.binding ∉ assigned body := by simpa [sets, target?, blocks] using fixed
    rw [used_times] at once ⊢
    refine Expr.replacedIn_append times once (e.subst_of_not_mem r)
      (substBlock_of_not_mem r body) ?_ ?_
      <;> intro left
      <;> simp [Expr.replacedIn, substFirst, e.substFirst_eq r (Expr.count_left_le once),
        substFirstBlock_eq r body fixed (Expr.count_right_le once), left]
  | .forEach y e body => by
    intro fixed once
    have fixed : r.binding ∉ assigned body := by simpa [sets, target?, blocks] using fixed
    rw [used_forEach] at once ⊢
    refine Expr.replacedIn_append (forEach y) once (e.subst_of_not_mem r)
      (substBlock_of_not_mem r body) ?_ ?_
      <;> intro left
      <;> simp [Expr.replacedIn, substFirst, e.substFirst_eq r (Expr.count_left_le once),
        substFirstBlock_eq r body fixed (Expr.count_right_le once), left]
  | .forEachPair k v e body => by
    intro fixed once
    have fixed : r.binding ∉ assigned body := by simpa [sets, target?, blocks] using fixed
    rw [used_forEachPair] at once ⊢
    refine Expr.replacedIn_append (forEachPair k v) once (e.subst_of_not_mem r)
      (substBlock_of_not_mem r body) ?_ ?_
      <;> intro left
      <;> simp [Expr.replacedIn, substFirst, e.substFirst_eq r (Expr.count_left_le once),
        substFirstBlock_eq r body fixed (Expr.count_right_le once), left]
  | .select e arms f => by
    intro fixed once
    rw [sets_select] at fixed
    rw [used_select] at once ⊢
    have rest := Expr.count_right_le once
    have inner : (select e arms f).substFirst r = (if r.binding ∈ e.locals then
        some (select (e.subst r) arms f) else
        Expr.replacedIn r.binding (Failure.localsOption f ++ usesArms arms)
          (select e (substArms r arms) (f.map (Failure.subst r)))) := by
      by_cases test : r.binding ∈ e.locals
      · simp [Expr.replacedIn, substFirst, e.substFirst_eq r (Expr.count_left_le once), test]
      · rw [if_neg test]
        refine Expr.replacedIn_append (fun f arms => select e arms f) rest
          (Failure.map_subst_of_not_mem r f) (substArms_of_not_mem r arms) ?_ ?_
        · intro left
          simp only [Expr.replacedIn, substFirst, e.substFirst_eq r (Expr.count_left_le once),
            if_neg test, Failure.bind_substFirst_eq r f (Expr.count_left_le rest), if_pos left]
          rw [Failure.some_getD_of_mem left]
        · intro left
          simp only [Expr.replacedIn, substFirst, e.substFirst_eq r (Expr.count_left_le once),
            if_neg test, Failure.bind_substFirst_eq r f (Expr.count_left_le rest), if_neg left,
            substFirstArms_eq r arms fixed (Expr.count_right_le rest)]
    rw [inner]
    by_cases test : r.binding ∈ e.locals
    · have restFree := Expr.not_mem_right once test
      rw [List.mem_append, not_or] at restFree
      simp [Expr.replacedIn, subst, test, Failure.map_subst_of_not_mem r f restFree.1,
        substArms_of_not_mem r arms restFree.2]
    · simp [Expr.replacedIn, subst, test, e.subst_of_not_mem r test]
  | .fail f => by
    intro _ once
    rw [substFirst, f.substFirst_eq r (by simpa using once), Expr.replacedIn_map]
    simp [subst]

theorem substFirstBlock_eq (r : Expr.Replacement) : ∀ stmts : List Stmt,
    r.binding ∉ assigned stmts → (uses stmts).count r.binding ≤ 1 →
    substFirstBlock r stmts = Expr.replacedIn r.binding (uses stmts) (substBlock r stmts)
  | [] => fun _ _ => rfl
  | s :: rest => by
    intro fixed once
    simp only [assigned_cons, List.mem_append, not_or] at fixed
    rw [uses_cons] at once ⊢
    refine Expr.replacedIn_append List.cons once (subst_of_not_mem r s)
      (substBlock_of_not_mem r rest) ?_ ?_
      <;> intro left
      <;> simp [Expr.replacedIn, substFirstBlock,
        substFirst_eq r s fixed.1 (Expr.count_left_le once),
        substFirstBlock_eq r rest fixed.2 (Expr.count_right_le once), left]

theorem substFirstArms_eq (r : Expr.Replacement) : ∀ arms : List (Pattern × List Stmt),
    r.binding ∉ assignedArms arms → (usesArms arms).count r.binding ≤ 1 →
    substFirstArms r arms = Expr.replacedIn r.binding (usesArms arms) (substArms r arms)
  | [] => fun _ _ => rfl
  | (p, body) :: rest => by
    intro fixed once
    simp only [assignedArms_cons, List.mem_append, not_or] at fixed
    rw [usesArms_cons] at once ⊢
    refine Expr.replacedIn_append (fun body rest => (p, body) :: rest) once
      (substBlock_of_not_mem r body) (substArms_of_not_mem r rest) ?_ ?_
      <;> intro left
      <;> simp [Expr.replacedIn, substFirstArms,
        substFirstBlock_eq r body fixed.1 (Expr.count_left_le once),
        substFirstArms_eq r rest fixed.2 (Expr.count_right_le once), left]

end

/-! ### Assignments and binders after replacing -/

theorem substArms_eq (r : Expr.Replacement) (arms : List (Pattern × List Stmt)) :
    substArms r arms = arms.map fun arm => (arm.1, substBlock r arm.2) := by
  induction arms with
  | nil => rfl
  | cons arm rest ih =>
    obtain ⟨pattern, body⟩ := arm
    simp [substArms, ih]

mutual

theorem flatten_subst (r : Expr.Replacement) : ∀ s : Stmt,
    (s.subst r).flatten = s.flatten.map (subst r)
  | .bind _ _ none | .bind _ _ (some _) | .assign _ _ | .eval _ | .write _ _ => by
    simp [subst, flatten]
  | .writeCodec _ _ | .push _ _ | .fail _ => by simp [subst, flatten]
  | .branch _ yes no => by
    simp [subst, flatten, flattenBlock_subst r yes, flattenBlock_subst r no]
  | .ifPresent _ _ body | .times _ body | .forEach _ _ body | .forEachPair _ _ _ body => by
    simp [subst, flatten, flattenBlock_subst r body]
  | .select _ arms _ => by simp [subst, flatten, flattenArms_subst r arms]

theorem flattenBlock_subst (r : Expr.Replacement) : ∀ stmts : List Stmt,
    flattenBlock (substBlock r stmts) = (flattenBlock stmts).map (subst r)
  | [] => rfl
  | s :: rest => by
    simp [substBlock, flattenBlock, flatten_subst r s, flattenBlock_subst r rest]

theorem flattenArms_subst (r : Expr.Replacement) : ∀ arms : List (Pattern × List Stmt),
    flattenArms (substArms r arms) = (flattenArms arms).map (subst r)
  | [] => rfl
  | (_, body) :: rest => by
    simp [substArms, flattenArms, flattenBlock_subst r body, flattenArms_subst r rest]

end

theorem binders_subst (r : Expr.Replacement) (s : Stmt) : (s.subst r).binders = s.binders := by
  match s with
  | .bind _ _ none | .bind _ _ (some _) | .assign _ _ | .eval _ | .write _ _ => rfl
  | .writeCodec _ _ | .push _ _ | .fail _ | .branch _ _ _ | .ifPresent _ _ _ => rfl
  | .times _ _ | .forEach _ _ _ | .forEachPair _ _ _ _ => rfl
  | .select _ arms _ => simp [subst, binders, substArms_eq, List.flatMap_map]

theorem target?_subst (r : Expr.Replacement) (s : Stmt) : (s.subst r).target? = s.target? := by
  match s with
  | .bind _ _ none | .bind _ _ (some _) | .assign _ _ | .eval _ | .write _ _ => rfl
  | .writeCodec _ _ | .push _ _ | .fail _ | .branch _ _ _ | .ifPresent _ _ _ => rfl
  | .times _ _ | .forEach _ _ _ | .forEachPair _ _ _ _ | .select _ _ _ => rfl

@[simp]
theorem bound_substBlock (r : Expr.Replacement) (stmts : List Stmt) :
    bound (substBlock r stmts) = bound stmts := by
  simp only [bound, flattenBlock_subst, List.flatMap_map, binders_subst]

@[simp]
theorem assigned_substBlock (r : Expr.Replacement) (stmts : List Stmt) :
    assigned (substBlock r stmts) = assigned stmts := by
  simp only [assigned, flattenBlock_subst, List.filterMap_map]
  exact congrArg (List.filterMap · _) (funext (target?_subst r))

end Stmt

end WireSchema.Ir
