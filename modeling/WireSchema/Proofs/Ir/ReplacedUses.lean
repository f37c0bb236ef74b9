import WireSchema.Proofs.Elision.Hygiene

/-!
# Uses after replacing

Replacing a binding turns each of its uses into the uses of the image, in place, and leaves all
other uses as they are. So what is used stays in order, and how often a binding is used can be
counted before and after.
-/

namespace WireSchema.Ir

/-- What becomes of a use when a binding is replaced. -/
def Expr.Replacement.usesOf (r : Expr.Replacement) (y : Nat) : List Nat :=
  if y = r.binding then r.image.locals else [y]

namespace Expr

/-- The replaced binding makes way for the uses of its image; every other use is counted as before.
-/
theorem Replacement.count_usesOf (r : Replacement) {y : Nat} (other : y ≠ r.binding)
    (names : List Nat) : (names.flatMap r.usesOf).count y =
      names.count y + names.count r.binding * r.image.locals.count y := by
  induction names with
  | nil => simp
  | cons x rest ih =>
    rw [List.flatMap_cons, List.count_append, ih]
    by_cases here : x = r.binding
    · subst here
      simp only [Replacement.usesOf, ↓reduceIte, List.count_cons_self,
        List.count_cons_of_ne (Ne.symm other), Nat.add_mul, Nat.one_mul]
      omega
    · simp only [Replacement.usesOf, if_neg here, List.count_cons_of_ne here]
      by_cases same : x = y
      · simp only [same, List.count_cons_self, List.count_nil]
        omega
      · simp only [List.count_cons_of_ne same, List.count_nil]
        omega

theorem Replacement.mem_usesOf {r : Replacement} {names : List Nat} {y : Nat}
    (used : y ∈ names.flatMap r.usesOf) : y ∈ names ∨ y ∈ r.image.locals := by
  obtain ⟨x, member, becomes⟩ := List.mem_flatMap.mp used
  unfold Replacement.usesOf at becomes
  split at becomes
  · exact .inr becomes
  · exact .inl (List.mem_singleton.mp becomes ▸ member)

theorem Replacement.mem_usesOf_of_ne {r : Replacement} {names : List Nat} {y : Nat}
    (used : y ∈ names) (other : y ≠ r.binding) : y ∈ names.flatMap r.usesOf :=
  List.mem_flatMap.mpr ⟨y, used, by simp [Replacement.usesOf, other]⟩

mutual

theorem locals_subst (r : Replacement) : ∀ e : Expr,
    (e.subst r).locals = e.locals.flatMap r.usesOf
  | .lit _ | .read _ | .enumValue _ _ | .absent | .newList | .newMap | .callDecode _ => by
    simp [subst]
  | .var y => by
    by_cases here : y.id = r.binding
    · simp [subst, Replacement.usesOf, here]
    · simp [subst, Replacement.usesOf, here]
  | .deref e | .borrow e | .field e _ | .cast e _ | .present e | .isPresent e | .len e => by
    simpa [subst] using locals_subst r e
  | .fromId _ e | .toId _ e => by simpa [subst] using locals_subst r e
  | .struct _ fields => by simpa [subst] using localsFields_subst r fields
  | .variant _ _ none => by simp [subst, substOption]
  | .variant _ _ (some e) => by simpa [subst, substOption] using locals_subst r e
  | .binary _ a b | .pair a b => by simp [subst, locals_subst r a, locals_subst r b]
  | .cond c t o => by simp [subst, locals_subst r c, locals_subst r t, locals_subst r o]
  | .call _ args _ => by simpa [subst] using localsList_subst r args

theorem localsList_subst (r : Replacement) : ∀ es : List Expr,
    localsList (substList r es) = (localsList es).flatMap r.usesOf
  | [] => rfl
  | e :: rest => by simp [substList, locals_subst r e, localsList_subst r rest]

theorem localsFields_subst (r : Replacement) : ∀ fields : List (String × Expr),
    localsFields (substFields r fields) = (localsFields fields).flatMap r.usesOf
  | [] => rfl
  | (_, e) :: rest => by simp [substFields, locals_subst r e, localsFields_subst r rest]

end

mutual

/-- Only bindings are replaced, so the effects of an expression stay. -/
theorem hasEffect_subst (r : Replacement) : ∀ e : Expr, e.hasEffect = true →
    (e.subst r).hasEffect = true
  | .lit _ | .enumValue _ _ | .absent | .newList | .newMap | .var _ => by simp
  | .read _ | .callDecode _ | .fromId _ _ | .call _ _ _ => by simp [subst]
  | .deref e | .borrow e | .field e _ | .cast e _ | .present e | .isPresent e | .len e
  | .toId _ e => by simpa [subst] using hasEffect_subst r e
  | .struct _ fields => effectInFields_subst r fields
  | .variant _ _ none => by simp [subst, substOption]
  | .variant _ _ (some e) => hasEffect_subst r e
  | .binary _ a b | .pair a b => by
    simp only [subst, hasEffect_binary, hasEffect_pair, Bool.or_eq_true]
    exact Or.imp (hasEffect_subst r a) (hasEffect_subst r b)
  | .cond c t o => by
    simp only [subst, hasEffect_cond, Bool.or_eq_true]
    exact Or.imp (hasEffect_subst r c) (Or.imp (hasEffect_subst r t) (hasEffect_subst r o))

theorem effectInFields_subst (r : Replacement) : ∀ fields : List (String × Expr),
    (nodesFields fields).any isEffect = true →
    (nodesFields (substFields r fields)).any isEffect = true
  | [] => id
  | (_, e) :: rest => by
    simp only [substFields, nodesFields, List.any_append, Bool.or_eq_true]
    exact Or.imp (hasEffect_subst r e) (effectInFields_subst r rest)

end

end Expr

namespace Stmt

theorem pushed?_subst (r : Expr.Replacement) (s : Stmt) : (s.subst r).pushed? = s.pushed? := by
  cases s with
  | bind x mutable init => cases init <;> rfl
  | _ => rfl

theorem target?_of_pushed? {s : Stmt} {x : Nat} (pushed : s.pushed? = some x) :
    s.target? = some x := by
  cases s <;> simp_all [pushed?, target?]

theorem ownUses_subst {r : Expr.Replacement} {s : Stmt} (unset : s.target? ≠ some r.binding) :
    (s.subst r).ownUses = s.ownUses.flatMap r.usesOf := by
  have exprs : (s.exprs.map (·.subst r)).flatMap Expr.locals =
      (s.exprs.flatMap Expr.locals).flatMap r.usesOf := by
    rw [List.flatMap_map, List.flatMap_assoc]
    exact List.flatMap_congr fun e _ => e.locals_subst r
  have pushed : s.pushed?.toList = s.pushed?.toList.flatMap r.usesOf := by
    cases found : s.pushed? with
    | none => rfl
    | some x =>
      have other : x ≠ r.binding := fun same => unset (same ▸ target?_of_pushed? found)
      simp [Expr.Replacement.usesOf, other]
  rw [ownUses, ownUses, exprs_subst, pushed?_subst, exprs, List.flatMap_append, ← pushed]

/-- A binding that is never set is used by expressions only, in which it makes way for its image. -/
theorem uses_substBlock {r : Expr.Replacement} {stmts : List Stmt}
    (unset : r.binding ∉ assigned stmts) :
    uses (substBlock r stmts) = (uses stmts).flatMap r.usesOf := by
  rw [uses, uses, flattenBlock_subst, List.flatMap_map, List.flatMap_assoc]
  refine List.flatMap_congr fun s member => ownUses_subst fun set => unset ?_
  exact List.mem_filterMap.mpr ⟨s, member, set⟩

theorem sets_subst (r : Expr.Replacement) (s : Stmt) : (s.subst r).sets = s.sets := by
  have whole := assigned_substBlock r [s]
  simpa [substBlock, assigned_cons] using whole

end Stmt

end WireSchema.Ir
