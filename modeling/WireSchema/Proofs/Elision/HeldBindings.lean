import WireSchema.Proofs.Elision.Meaning
import WireSchema.Proofs.Ir.ReplacedUses

/-!
# Bindings in sequence

The bindings of a body come one after another: each is bound once, used only after its binder, and
keeps its value. Where the initial value of such a binding is put in the place of its use, every other
binding is used as often as before, and none becomes free to move. A binding without effects cannot
be moved to its use exactly if it is held: something that its initial value reads is set before.

## Main results

* `Stmt.Sequenced.replace`, `Stmt.count_replace`: what a replacement keeps.
* `Stmt.settled_iff`: the bindings that are settled are the held ones.
* `forwardInto_eq_none_iff`: what stops a binding without effects from moving to its use.
* `Block.WellScoped.sequenced`: the bindings of a body in scope come in sequence.
-/

namespace WireSchema

namespace Ir

/-- Something that the initial value of `x` reads is set by one of the statements `after` its binder,
and no statement before that one uses `x`. -/
def Stmt.Held (x : Local) (init : Expr) (after : List Stmt) : Prop :=
  ∃ y ∈ init.locals, ∃ early s late, after = early ++ s :: late ∧ y ∈ assigned [s] ∧
    x.id ∉ uses early

namespace Stmt

/-! ### Bindings in sequence -/

/-- The bindings that the statements themselves give a fixed initial value. -/
def fixed (stmts : List Stmt) : List Nat :=
  stmts.filterMap fun s => s.initialised?.map (·.1.id)

@[simp]
theorem fixed_nil : fixed [] = [] := rfl

theorem fixed_cons (s : Stmt) (rest : List Stmt) :
    fixed (s :: rest) = (s.initialised?.map (·.1.id)).toList ++ fixed rest := by
  rw [fixed, List.filterMap_cons]
  cases s.initialised? <;> rfl

@[simp]
theorem fixed_bind (x : Local) (init : Expr) (rest : List Stmt) :
    fixed (.bind x false (some init) :: rest) = x.id :: fixed rest := rfl

@[simp]
theorem fixed_append (front back : List Stmt) : fixed (front ++ back) = fixed front ++ fixed back :=
  List.filterMap_append

@[simp]
theorem fixed_substBlock (r : Expr.Replacement) (stmts : List Stmt) :
    fixed (substBlock r stmts) = fixed stmts := by
  induction stmts with
  | nil => rfl
  | cons s rest ih =>
    rw [substBlock, fixed_cons, fixed_cons, ih, initialised?_subst, Option.map_map]
    rfl

theorem fixed_sublist_constants (stmts : List Stmt) : (fixed stmts).Sublist (constants stmts) := by
  induction stmts with
  | nil => exact .slnil
  | cons s rest ih =>
    rw [fixed_cons, constants_cons]
    exact (List.Sublist.refl _).append (ih.trans (List.sublist_append_right _ _))

theorem fixed_sublist_bound (stmts : List Stmt) : (fixed stmts).Sublist (bound stmts) := by
  induction stmts with
  | nil => exact .slnil
  | cons s rest ih =>
    rw [fixed_cons, bound_cons]
    refine List.Sublist.append ?_ ih
    cases found : s.initialised? with
    | none => exact List.nil_sublist _
    | some entry =>
      cases eq_bind_of_initialised found
      simp [binds, binders, blocks]

/-- No statement uses a binding that it or a later one initialises. -/
def Ordered : List Stmt → Prop
  | [] => True
  | s :: rest => (∀ y ∈ s.used, y ∉ fixed (s :: rest)) ∧ Ordered rest

/-- The bindings with a fixed initial value have one binder each, which comes before the uses, and
are never set. -/
structure Sequenced (stmts : List Stmt) : Prop where
  once : (fixed stmts).Nodup
  unset : ∀ x ∈ fixed stmts, x ∉ assigned stmts
  ordered : Ordered stmts

theorem ordered_append {front back : List Stmt} : Ordered (front ++ back) ↔
    (∀ y ∈ uses front, y ∉ fixed back) ∧ Ordered front ∧ Ordered back := by
  induction front with
  | nil => simp [Ordered]
  | cons s rest ih =>
    simp only [List.cons_append, Ordered, ih, fixed_cons, fixed_append, uses_cons, List.mem_append,
      not_or]
    constructor
    · rintro ⟨here, later, front, back⟩
      exact ⟨fun y used => used.elim (fun own => (here y own).2.2) (later y),
        ⟨fun y own => ⟨(here y own).1, (here y own).2.1⟩, front⟩, back⟩
    · rintro ⟨all, ⟨here, front⟩, back⟩
      exact ⟨fun y own => ⟨(here y own).1, (here y own).2, all y (.inl own)⟩,
        fun y used => all y (.inr used), front, back⟩

theorem Ordered.subst {r : Expr.Replacement} {stmts : List Stmt} (ordered : Ordered stmts)
    (unset : r.binding ∉ assigned stmts) (apart : ∀ y ∈ r.image.locals, y ∉ fixed stmts) :
    Ordered (substBlock r stmts) := by
  induction stmts with
  | nil => trivial
  | cons s rest ih =>
    rw [assigned_cons, List.mem_append, not_or] at unset
    have later : ∀ y ∈ r.image.locals, y ∉ fixed rest := fun y read member =>
      apart y read (by simp [fixed_cons, member])
    refine ⟨fun y used => ?_, ih ordered.2 unset.2 later⟩
    have alone : r.binding ∉ assigned [s] := by simpa [assigned_cons] using unset.1
    have whole := uses_substBlock alone
    simp only [substBlock, uses_cons, uses_nil, List.append_nil] at whole
    rw [whole] at used
    have same : fixed (s.subst r :: substBlock r rest) = fixed (s :: rest) :=
      fixed_substBlock r (s :: rest)
    rw [same]
    exact (Expr.Replacement.mem_usesOf used).elim (ordered.1 y) (apart y)

section Replace

variable {front back : List Stmt} {x : Local} {init : Expr}

theorem Sequenced.apart (sequenced : Sequenced (front ++ .bind x false (some init) :: back)) :
    x.id ∉ fixed front ∧ x.id ∉ fixed back ∧ x.id ∉ assigned back ∧ x.id ∉ uses front ∧
      x.id ∉ init.locals ∧ ∀ y ∈ init.locals, y ∉ fixed back := by
  obtain ⟨once, unset, ordered⟩ := sequenced
  obtain ⟨before, _, here, _⟩ := ordered_append.mp ordered
  rw [fixed_append, fixed_bind, List.nodup_append] at once
  have set := unset x.id (by simp)
  simp only [assigned_append, assigned_cons, List.mem_append, not_or] at set
  simp only [used_bind_some, fixed_bind, List.mem_cons, not_or] at here before
  refine ⟨fun member => once.2.2 _ member x.id (by simp) rfl, (List.nodup_cons.mp once.2.1).1,
    set.2.2, fun used => (before _ used).1 rfl, fun read => (here _ read).1 rfl,
    fun y read => (here y read).2⟩

/-- A binding is used after its binder only. -/
theorem Sequenced.count_uses (sequenced : Sequenced (front ++ .bind x false (some init) :: back)) :
    (uses (front ++ .bind x false (some init) :: back)).count x.id = (uses back).count x.id := by
  obtain ⟨_, _, _, before, own, _⟩ := sequenced.apart
  simp [uses_cons, List.count_eq_zero_of_not_mem before, List.count_eq_zero_of_not_mem own]

/-- A binding makes way for its initial value in what follows. -/
theorem Sequenced.replace (sequenced : Sequenced (front ++ .bind x false (some init) :: back)) :
    Sequenced (front ++ substBlock ⟨x.id, init⟩ back) := by
  obtain ⟨_, _, unsetBack, _, _, later⟩ := sequenced.apart
  obtain ⟨once, unset, ordered⟩ := sequenced
  obtain ⟨before, first, _, rest⟩ := ordered_append.mp ordered
  have fewer : (fixed (front ++ substBlock ⟨x.id, init⟩ back)).Sublist
      (fixed (front ++ .bind x false (some init) :: back)) := by
    rw [fixed_append, fixed_append, fixed_substBlock, fixed_bind]
    exact (List.Sublist.refl _).append (List.sublist_cons_self ..)
  constructor
  case once => exact once.sublist fewer
  case unset =>
    intro y member set
    refine unset y (fewer.subset member) ?_
    simp only [assigned_append, assigned_substBlock, assigned_cons, List.mem_append] at set ⊢
    exact set.imp_right .inr
  case ordered =>
    refine ordered_append.mpr ⟨fun y used => ?_, first, Ordered.subst rest unsetBack later⟩
    rw [fixed_substBlock]
    exact fun member => before y used (by simp [member])

/-- If a binding with one use makes way for its initial value, every other one is used as often as
before. -/
theorem count_replace (sequenced : Sequenced (front ++ .bind x false (some init) :: back))
    (once : (uses (front ++ .bind x false (some init) :: back)).count x.id = 1) {y : Nat}
    (other : y ≠ x.id) : (uses (front ++ substBlock ⟨x.id, init⟩ back)).count y =
      (uses (front ++ .bind x false (some init) :: back)).count y := by
  obtain ⟨_, _, unset, _, _, _⟩ := sequenced.apart
  rw [sequenced.count_uses] at once
  have moved := Expr.Replacement.count_usesOf ⟨x.id, init⟩ other (uses back)
  simp only [once, Nat.one_mul] at moved
  rw [uses_append, uses_substBlock unset, uses_append, uses_cons, used_bind_some]
  simp only [List.count_append, moved]
  omega

end Replace

/-! ### Bindings that are held -/

/-- Every binding of the statements without effects that has one use in `names` is held. -/
def Settled (names : List Nat) : List Stmt → Prop
  | [] => True
  | s :: rest => (∀ x init, s.initialised? = some (x, init) → init.hasEffect = false →
      names.count x.id = 1 → Held x init rest) ∧ Settled names rest

theorem settled_append {names : List Nat} {front back : List Stmt}
    (settled : Settled names (front ++ back)) : Settled names back := by
  induction front with
  | nil => exact settled
  | cons s rest ih => exact ih settled.2

/-- Only the counts of the bindings at hand matter. -/
theorem Settled.recount {names names' : List Nat} {stmts : List Stmt}
    (settled : Settled names stmts)
    (same : ∀ x ∈ fixed stmts, names'.count x = names.count x) : Settled names' stmts := by
  induction stmts with
  | nil => trivial
  | cons s rest ih =>
    refine ⟨fun x init found pure once => settled.1 x init found pure ?_,
      ih settled.2 fun x member => same x (by simp [fixed_cons, member])⟩
    rw [← same x.id (by simp [fixed_cons, found]), once]

/-- A binding that is held stays held when another makes way for its initial value: what holds it is
set, so it is not the one that was replaced. -/
theorem Held.subst {r : Expr.Replacement} {x : Local} {init : Expr} {after : List Stmt}
    (held : Held x init after) (unset : r.binding ∉ assigned after) (apart : x.id ∉ r.image.locals) :
    Held x (init.subst r) (substBlock r after) := by
  obtain ⟨y, read, early, s, late, rfl, set, unused⟩ := held
  simp only [assigned_append, assigned_cons s late, List.mem_append, not_or] at unset
  have sets : y ∈ s.sets := by simpa [assigned_cons] using set
  have other : y ≠ r.binding := fun same => unset.2.1 (same ▸ sets)
  refine ⟨y, ?_, substBlock r early, s.subst r, substBlock r late, ?_, ?_, fun used => ?_⟩
  · rw [Expr.locals_subst]
    exact Expr.Replacement.mem_usesOf_of_ne read other
  · rw [substBlock_append, substBlock]
  · simpa [assigned_cons, sets_subst] using sets
  · rw [uses_substBlock unset.1] at used
    exact (Expr.Replacement.mem_usesOf used).elim unused apart

theorem Settled.subst {names : List Nat} {r : Expr.Replacement} {stmts : List Stmt}
    (settled : Settled names stmts) (unset : r.binding ∉ assigned stmts)
    (apart : ∀ y ∈ r.image.locals, y ∉ fixed stmts) : Settled names (substBlock r stmts) := by
  induction stmts with
  | nil => trivial
  | cons s rest ih =>
    rw [assigned_cons, List.mem_append, not_or] at unset
    have later : ∀ y ∈ r.image.locals, y ∉ fixed rest := fun y read member =>
      apart y read (by simp [fixed_cons, member])
    refine ⟨fun x init found pure once => ?_, ih settled.2 unset.2 later⟩
    rw [initialised?_subst, Option.map_eq_some_iff] at found
    obtain ⟨⟨x', init'⟩, found, same⟩ := found
    cases same
    have pure' : init'.hasEffect = false := by
      rw [← Bool.not_eq_true] at pure ⊢
      exact fun effect => pure (init'.hasEffect_subst r effect)
    refine (settled.1 _ init' found pure' once).subst unset.2 fun read => ?_
    exact apart _ read (by simp [fixed_cons, found])

/-- What comes last may make way for anything, if it sets nothing. -/
theorem Settled.replaceLast {names : List Nat} {front back back' : List Stmt}
    (settled : Settled names (front ++ back)) (idle : assigned back = [])
    (settled' : Settled names back') : Settled names (front ++ back') := by
  induction front with
  | nil => exact settled'
  | cons s rest ih =>
    refine ⟨fun x init found pure once => ?_, ih settled.2⟩
    obtain ⟨y, read, early, t, late, same, set, unused⟩ := settled.1 x init found pure once
    have notLast (more : List Stmt) : back ≠ more ++ t :: late := by
      rintro rfl
      have last : y ∈ assigned (more ++ t :: late) := by
        rw [assigned_append, assigned_cons]
        simp only [assigned_cons, assigned_nil, List.append_nil] at set
        exact List.mem_append_right _ (List.mem_append_left _ set)
      rw [idle] at last
      cases last
    rcases List.append_eq_append_iff.mp same with ⟨more, _, tail⟩ | ⟨more, whole, tail⟩
    · exact absurd tail (notLast more)
    · cases more with
      | nil => exact absurd tail.symm (notLast [])
      | cons t' more =>
        cases tail
        exact ⟨y, read, early, t, more ++ back', by rw [whole]; simp, set, unused⟩

theorem settled_iff {names : List Nat} {stmts : List Stmt} : Settled names stmts ↔
    ∀ before x init after, stmts = before ++ .bind x false (some init) :: after →
      init.hasEffect = false → names.count x.id = 1 → Held x init after := by
  constructor
  · rintro settled before x init after rfl
    exact (settled_append settled).1 x init rfl
  · intro all
    induction stmts with
    | nil => trivial
    | cons s rest ih =>
      refine ⟨fun x init found => ?_, ih fun before x init after same =>
        all (s :: before) x init after (by rw [same]; rfl)⟩
      cases eq_bind_of_initialised found
      exact all [] x init rest rfl

/-! ### Statements up to the use -/

/-- The statements up to the first that mentions `x`. -/
def through (x : Nat) : List Stmt → List Stmt
  | [] => []
  | s :: rest => if s.mentions x then [s] else s :: through x rest

theorem through_eq (x : Nat) (stmts : List Stmt) : through x stmts =
    match splitAtMention x stmts with
    | (before, some (s, _)) => before ++ [s]
    | (_, none) => stmts := by
  induction stmts with
  | nil => rfl
  | cons s rest ih =>
    rw [through, splitAtMention]
    split
    · rfl
    · rw [ih]
      rcases splitAtMention x rest with ⟨before, _ | ⟨t, after⟩⟩ <;> rfl

theorem mem_used_of_mention {s : Stmt} {x : Nat} (mentioned : s.mentions x = true) : x ∈ s.used := by
  simp only [mentions, Bool.or_eq_true, List.any_eq_true, List.contains_iff_mem] at mentioned
  rw [used, ownUses, List.append_assoc, List.mem_append, List.mem_append]
  rcases mentioned with ⟨e, member, own⟩ | inner
  · exact .inl (List.mem_flatMap.mpr ⟨e, member, (e.mentions_iff x).mp own⟩)
  · exact .inr (.inr inner)

theorem mem_used_of_split {x : Nat} {stmts before after : List Stmt} {s : Stmt}
    (found : splitAtMention x stmts = (before, some (s, after))) : x ∈ s.used := by
  induction stmts generalizing before with
  | nil => cases found
  | cons t rest ih =>
    rw [splitAtMention] at found
    split at found
    case isTrue mentioned =>
      cases found
      exact mem_used_of_mention mentioned
    case isFalse =>
      rcases later : splitAtMention x rest with ⟨before', next⟩
      rw [later] at found
      cases found
      exact ih later

/-- A binding is held by what is set up to its use. -/
theorem held_iff {x : Local} {init : Expr} {stmts : List Stmt} (unset : x.id ∉ assigned stmts) :
    Held x init stmts ↔ ∃ y ∈ init.locals, y ∈ assigned (through x.id stmts) := by
  induction stmts with
  | nil => simp [Held, through]
  | cons s rest ih =>
    rw [assigned_cons, List.mem_append, not_or] at unset
    rw [through]
    split
    case isTrue mentioned =>
      constructor
      · rintro ⟨y, read, early, t, late, same, set, unused⟩
        cases early with
        | nil =>
          cases same
          exact ⟨y, read, set⟩
        | cons first early =>
          -- A statement before the one that sets `y` would be the one with the use.
          cases same
          exact absurd (by simp [uses_cons, mem_used_of_mention mentioned]) unused
      · rintro ⟨y, read, set⟩
        exact ⟨y, read, [], s, rest, rfl, set, by simp⟩
    case isFalse absent =>
      have unused := Probe.mem_used_of_mentions unset.1 (by simpa using absent)
      simp only [assigned_cons, List.mem_append]
      constructor
      · rintro ⟨y, read, early, t, late, same, set, free⟩
        cases early with
        | nil =>
          cases same
          exact ⟨y, read, .inl (by simpa [assigned_cons] using set)⟩
        | cons first early =>
          cases same
          rw [uses_cons, List.mem_append, not_or] at free
          obtain ⟨z, read', set'⟩ := (ih unset.2).mp ⟨y, read, early, t, late, rfl, set, free.2⟩
          exact ⟨z, read', .inr set'⟩
      · rintro ⟨y, read, here | later⟩
        · exact ⟨y, read, [], s, rest, rfl, by simpa [assigned_cons] using here, by simp⟩
        · obtain ⟨z, read', early, t, late, rfl, set, free⟩ := (ih unset.2).mpr ⟨y, read, later⟩
          exact ⟨z, read', s :: early, t, late, rfl, set, by simp [uses_cons, unused, free]⟩

end Stmt

/-- The only use of a binding is found, so the initial value stays exactly if it is held. -/
theorem forwardInto_eq_none_iff {x : Local} {init : Expr} {b : Block}
    (unset : x.id ∉ Stmt.assigned b.stmts) (once : b.uses.count x.id = 1) :
    forwardInto x init b = none ↔ Stmt.Held x init b.stmts := by
  obtain ⟨stmts, result⟩ := b
  have any_iff (names : List Nat) : names.any init.locals.contains = true ↔
      ∃ y ∈ init.locals, y ∈ names := by
    simp only [List.any_eq_true, List.contains_iff_mem]
    exact ⟨fun ⟨y, member, read⟩ => ⟨y, read, member⟩, fun ⟨y, read, member⟩ => ⟨y, member, read⟩⟩
  have split := Probe.splitAtMention_eq x.id stmts unset
  simp only [Block.uses] at once unset ⊢
  rw [Stmt.held_iff unset, Stmt.through_eq, forwardInto]
  simp only [← any_iff]
  rcases found : splitAtMention x.id stmts with ⟨before, _ | ⟨s, after⟩⟩
  -- No statement has the use: it is in the result, and all statements come before it.
  · rw [found] at split
    have used : x.id ∈ result.locals := by
      rw [List.count_append, List.count_eq_zero_of_not_mem split] at once
      exact List.count_pos_iff.mp (by omega)
    rw [List.count_append] at once
    have replaced := result.substFirst_eq ⟨x.id, init⟩ (by dsimp only; omega)
    simp only [Expr.replacedIn, if_pos used] at replaced
    simp only [replaced, Option.map_some, ite_eq_left_iff, reduceCtorEq, imp_false, not_not]
  -- The use is in `s`, and what `s` itself sets counts as well.
  · rw [found] at split
    obtain ⟨rfl, _⟩ := split
    have used := Stmt.mem_used_of_split found
    simp only [Stmt.assigned_append, Stmt.assigned_cons, List.mem_append, not_or] at unset
    simp only [Stmt.uses_append, Stmt.uses_cons, List.count_append] at once
    have replaced := s.substFirst_eq ⟨x.id, init⟩ unset.2.1 (by dsimp only; omega)
    simp only [Expr.replacedIn, if_pos used] at replaced
    simp only [replaced, Option.map_some, ite_eq_left_iff, reduceCtorEq, imp_false, not_not]

/-! ### Bodies in scope -/

namespace Stmt

mutual

/-- A statement uses what was seen before and what it binds itself. -/
theorem seen_of_inScope (own : List Nat) : ∀ (s : Stmt) (seen : List Nat),
    s.inScope own seen = true → ∀ y ∈ s.used, y ∈ own → y ∈ seen ∨ y ∈ s.binds
  | .bind _ _ none, seen, inScope => by simp
  | .bind _ _ (some e), seen, inScope | .assign _ e, seen, inScope | .eval e, seen, inScope
  | .write _ e, seen, inScope | .writeCodec _ e, seen, inScope => by
    intro y used bound
    refine .inl (mem_of_covered inScope ?_ bound)
    simpa [ownUses, exprs, pushed?] using used
  | .push _ e, seen, inScope | .fail f, seen, inScope => by
    intro y used bound
    refine .inl (mem_of_covered inScope ?_ bound)
    simpa [used_push, ownUses, exprs, pushed?, Failure.locals] using used
  | .branch e yes no, seen, inScope => by
    simp only [Stmt.inScope, Bool.and_eq_true] at inScope
    intro y used bound
    simp only [used_branch, List.mem_append] at used
    simp only [binds, binders, blocks, List.nil_append, List.flatMap_cons, List.flatMap_nil,
      List.append_nil, List.mem_append]
    rcases used with test | first | second
    · exact .inl (mem_of_covered inScope.1.1 test bound)
    · exact (seen_of_inScopeBlock own yes seen inScope.1.2 y first bound).imp_right .inl
    · exact (seen_of_inScopeBlock own no seen inScope.2 y second bound).imp_right .inr
  | .times e body, seen, inScope => by
    simp only [Stmt.inScope, Bool.and_eq_true] at inScope
    intro y used bound
    simp only [used_times, List.mem_append] at used
    simp only [binds, binders, blocks, List.nil_append, List.flatMap_cons, List.flatMap_nil,
      List.append_nil]
    rcases used with count | inner
    · exact .inl (mem_of_covered inScope.1 count bound)
    · exact seen_of_inScopeBlock own body seen inScope.2 y inner bound
  | .ifPresent x e body, seen, inScope | .forEach x e body, seen, inScope => by
    simp only [Stmt.inScope, Bool.and_eq_true] at inScope
    intro y used bound
    simp only [used_ifPresent, used_forEach, List.mem_append] at used
    simp only [binds, binders, blocks, List.flatMap_cons, List.flatMap_nil, List.append_nil,
      List.mem_append, List.mem_singleton]
    rcases used with source | inner
    · exact .inl (mem_of_covered inScope.1 source bound)
    · have found := seen_of_inScopeBlock own body _ inScope.2 y inner bound
      rw [List.mem_cons] at found
      tauto
  | .forEachPair key value e body, seen, inScope => by
    simp only [Stmt.inScope, Bool.and_eq_true] at inScope
    intro y used bound
    simp only [used_forEachPair, List.mem_append] at used
    simp only [binds, binders, blocks, List.flatMap_cons, List.flatMap_nil, List.append_nil,
      List.mem_append, List.mem_cons]
    rcases used with source | inner
    · exact .inl (mem_of_covered inScope.1 source bound)
    · have found := seen_of_inScopeBlock own body _ inScope.2 y inner bound
      simp only [List.mem_cons] at found
      tauto
  | .select e arms fallback, seen, inScope => by
    simp only [Stmt.inScope, Bool.and_eq_true] at inScope
    intro y used bound
    rw [used_select, ← List.append_assoc, List.mem_append] at used
    rcases used with here | inner
    · exact .inl (mem_of_covered inScope.1 here bound)
    · have found := seen_of_inScopeArms own arms seen inScope.2 y inner bound
      simp only [binds, binders, blocks, List.mem_append, List.flatMap_map]
      exact found

theorem seen_of_inScopeBlock (own : List Nat) : ∀ (stmts : List Stmt) (seen : List Nat),
    inScopeBlock own seen stmts = true → ∀ y ∈ uses stmts, y ∈ own → y ∈ seen ∨ y ∈ Stmt.bound stmts
  | [], _, _ => by simp
  | s :: rest, seen, inScope => by
    simp only [inScopeBlock, Bool.and_eq_true] at inScope
    intro y used bound
    rw [uses_cons, List.mem_append] at used
    rw [bound_cons, List.mem_append]
    rcases used with here | later
    · exact (seen_of_inScope own s seen inScope.1 y here bound).imp_right .inl
    · have found := seen_of_inScopeBlock own rest _ inScope.2 y later bound
      rw [List.mem_append] at found
      rcases found with (opened | before) | after
      · exact .inr (.inl (s.opens_subset y opened))
      · exact .inl before
      · exact .inr (.inr after)

theorem seen_of_inScopeArms (own : List Nat) : ∀ (arms : List (Pattern × List Stmt))
    (seen : List Nat), inScopeArms own seen arms = true → ∀ y ∈ usesArms arms, y ∈ own →
    y ∈ seen ∨ y ∈ arms.flatMap (fun arm => (arm.1.binding?.map (·.id)).toList) ∨
      y ∈ arms.flatMap (fun arm => Stmt.bound arm.2)
  | [], _, _ => by simp
  | (pattern, body) :: rest, seen, inScope => by
    simp only [inScopeArms, Bool.and_eq_true] at inScope
    intro y used bound
    rw [usesArms_cons, List.mem_append] at used
    simp only [List.flatMap_cons, List.mem_append]
    rcases used with here | later
    · have found := seen_of_inScopeBlock own body _ inScope.1 y here bound
      rw [List.mem_append] at found
      tauto
    · have found := seen_of_inScopeArms own rest seen inScope.2 y later bound
      tauto

end

theorem ordered_of_inScope (own : List Nat) (stmts : List Stmt) (seen : List Nat)
    (once : (bound stmts).Nodup) (within : ∀ x ∈ bound stmts, x ∈ own)
    (earlier : ∀ x ∈ seen, x ∉ bound stmts) (inScope : inScopeBlock own seen stmts = true) :
    Ordered stmts := by
  induction stmts generalizing seen with
  | nil => trivial
  | cons s rest ih =>
    rw [bound_cons, List.nodup_append] at once
    obtain ⟨_, later, disjoint⟩ := once
    simp only [inScopeBlock, Bool.and_eq_true] at inScope
    refine ⟨fun y used member => ?_, ih (s.opens ++ seen) later ?_ ?_ inScope.2⟩
    · have bound : y ∈ Stmt.bound (s :: rest) := (fixed_sublist_bound (s :: rest)).subset member
      cases found : s.initialised? with
      | some entry =>
        obtain ⟨x, init⟩ := entry
        -- A binding does not see itself.
        have covered := covered_of_initialised inScope.1 found
        cases eq_bind_of_initialised found
        rw [used_bind_some] at used
        exact earlier y (mem_of_covered covered used (within y bound)) bound
      | none =>
        rcases seen_of_inScope own s seen inScope.1 y used (within y bound) with before | here
        · exact earlier y before bound
        · rw [fixed_cons, found] at member
          exact disjoint y here y ((fixed_sublist_bound rest).subset member) rfl
    · exact fun x after => within x (by simp [bound_cons, after])
    · intro x before after
      rcases List.mem_append.mp before with opened | seen
      · exact disjoint x (s.opens_subset x opened) x after rfl
      · exact earlier x seen (by simp [bound_cons, after])

end Stmt

@[simp]
theorem Block.fixed_body (b : Block) : Stmt.fixed b.body = Stmt.fixed b.stmts := by
  rw [body, Stmt.fixed_append]
  exact List.append_nil _

theorem Block.WellScoped.sequenced {b : Block} (wellScoped : b.WellScoped) :
    Stmt.Sequenced b.body := by
  obtain ⟨once, stmts, result, fixed⟩ := wellScoped
  constructor
  case once =>
    rw [b.fixed_body]
    exact once.sublist (Stmt.fixed_sublist_bound b.stmts)
  case unset =>
    intro x member
    rw [b.fixed_body] at member
    rw [b.assigned_body]
    exact fixed x ((Stmt.fixed_sublist_constants b.stmts).subset member)
  case ordered =>
    have ordered := Stmt.ordered_of_inScope _ b.stmts [] once (fun _ member => member) (by simp) stmts
    exact Stmt.ordered_append.mpr ⟨by simp [Stmt.fixed_cons, Stmt.initialised?], ordered,
      by simp [Stmt.Ordered, Stmt.fixed_cons, Stmt.initialised?]⟩

end Ir

end WireSchema
