import WireSchema.Proofs.Elision.Frames

/-!
# Effects that move into an expression

The search for a binding in an expression says that everything before the binding is free of effects
and that no condition decides on it. Then the initial value may be evaluated at the place of the
binding instead of ahead of the expression: what comes before it can at most stop with a fault.
-/

namespace WireSchema

open Ir

namespace Ir.Expr

/-! ### Effects of the parts -/

@[simp]
theorem hasEffect_lit (l : Literal) : (lit l).hasEffect = false := rfl

@[simp]
theorem hasEffect_var (x : Local) : (var x).hasEffect = false := rfl

@[simp]
theorem hasEffect_deref (e : Expr) : (deref e).hasEffect = e.hasEffect := rfl

@[simp]
theorem hasEffect_borrow (e : Expr) : (borrow e).hasEffect = e.hasEffect := rfl

@[simp]
theorem hasEffect_read (p : Primitive) : (read p).hasEffect = true := rfl

@[simp]
theorem hasEffect_field (e : Expr) (name : String) : (field e name).hasEffect = e.hasEffect := rfl

@[simp]
theorem hasEffect_struct (type : String) (fields : List (String × Expr)) :
    (struct type fields).hasEffect = (nodesFields fields).any isEffect := rfl

@[simp]
theorem hasEffect_variant (type name : String) (payload : Option Expr) :
    (variant type name payload).hasEffect = (nodesOption payload).any isEffect := rfl

@[simp]
theorem hasEffect_enumValue (type name : String) : (enumValue type name).hasEffect = false := rfl

@[simp]
theorem hasEffect_fromId (type : String) (e : Expr) : (fromId type e).hasEffect = true := rfl

@[simp]
theorem hasEffect_toId (type : String) (e : Expr) : (toId type e).hasEffect = e.hasEffect := rfl

@[simp]
theorem hasEffect_binary (op : BinOp) (a b : Expr) :
    (binary op a b).hasEffect = (a.hasEffect || b.hasEffect) :=
  List.any_append

@[simp]
theorem hasEffect_cast (e : Expr) (kind : IntKind) : (cast e kind).hasEffect = e.hasEffect := rfl

@[simp]
theorem hasEffect_cond (c t o : Expr) :
    (cond c t o).hasEffect = (c.hasEffect || (t.hasEffect || o.hasEffect)) := by
  have split : (cond c t o).hasEffect = (nodes c ++ nodes t ++ nodes o).any isEffect := rfl
  rw [split, List.any_append, List.any_append, Bool.or_assoc]
  rfl

@[simp]
theorem hasEffect_present (e : Expr) : (present e).hasEffect = e.hasEffect := rfl

@[simp]
theorem hasEffect_absent : absent.hasEffect = false := rfl

@[simp]
theorem hasEffect_isPresent (e : Expr) : (isPresent e).hasEffect = e.hasEffect := rfl

@[simp]
theorem hasEffect_len (e : Expr) : (len e).hasEffect = e.hasEffect := rfl

@[simp]
theorem hasEffect_newList : newList.hasEffect = false := rfl

@[simp]
theorem hasEffect_newMap : newMap.hasEffect = false := rfl

@[simp]
theorem hasEffect_pair (a b : Expr) : (pair a b).hasEffect = (a.hasEffect || b.hasEffect) :=
  List.any_append

@[simp]
theorem hasEffect_callDecode (codec : String) : (callDecode codec).hasEffect = true := rfl

@[simp]
theorem hasEffect_call (path : String) (args : List Expr) (fallible : Bool) :
    (call path args fallible).hasEffect = true := rfl

/-! ### The search -/

end Ir.Expr

/-- What the result of a search says about code with the given bindings and effects: nothing found
means that the binding is not there, and nothing comes early after an effect. -/
def Ir.Search.Tells (x : Nat) (seen : Bool) (names : List Nat) (effect : Bool) : Search → Prop
  | .found late => x ∈ names ∧ (seen = true → late = true)
  | .passed out => x ∉ names ∧ out = (seen || effect)

theorem Ir.Search.Tells.andThen {x : Nat} {seen effect₁ effect₂ : Bool} {names₁ names₂ : List Nat}
    {s : Search} {next : Bool → Search} (first : s.Tells x seen names₁ effect₁)
    (second : ∀ seen, (next seen).Tells x seen names₂ effect₂) :
    (s.andThen next).Tells x seen (names₁ ++ names₂) (effect₁ || effect₂) := by
  cases s with
  | found late => exact ⟨List.mem_append_left _ first.1, first.2⟩
  | passed out =>
    obtain ⟨absent, rfl⟩ := first
    have rest := second (seen || effect₁)
    simp only [Search.andThen]
    cases result : next (seen || effect₁) with
    | found late =>
      rw [result] at rest
      exact ⟨List.mem_append_right _ rest.1, fun before => rest.2 (by simp [before])⟩
    | passed out =>
      rw [result] at rest
      exact ⟨by simp [absent, rest.1], by rw [rest.2, Bool.or_assoc]⟩

namespace Ir.Expr

theorem tells_effect (x : Nat) (seen : Bool) : Search.Tells x seen [] true (.passed true) := by
  simp [Search.Tells]

mutual

theorem search_tells (x : Nat) (seen : Bool) : ∀ e : Expr,
    (e.search x seen).Tells x seen e.locals e.hasEffect
  | .lit _ | .enumValue _ _ | .absent | .newList | .newMap => by simp [search, Search.Tells]
  | .read _ | .callDecode _ => by simp [search, Search.Tells]
  | .var y => by
    by_cases here : y.id = x
    · simp [search, Search.Tells, here]
    · simp [search, Search.Tells, here, Ne.symm here]
  | .deref e | .borrow e | .field e _ | .cast e _ | .present e | .isPresent e | .len e => by
    simpa [search] using search_tells x seen e
  | .toId _ e => by simpa [search] using search_tells x seen e
  | .fromId _ e => by
    simpa [search] using (search_tells x seen e).andThen (tells_effect x)
  | .struct _ fields => by simpa [search] using searchFields_tells x seen fields
  | .variant _ _ payload => by simpa [search] using searchOption_tells x seen payload
  | .binary _ a b | .pair a b => by
    simpa [search] using (search_tells x seen a).andThen fun seen => search_tells x seen b
  | .cond c t o => by
    simp only [search, locals_cond, hasEffect_cond]
    refine (search_tells x seen c).andThen fun seen => ?_
    by_cases here : x ∈ t.locals ∨ x ∈ o.locals
    · have found : (t.mentions x || o.mentions x) = true := by
        simpa [mentions_iff] using here
      simp [found, Search.Tells, here]
    · have absent : (t.mentions x || o.mentions x) = false := by
        simpa [mentions] using here
      rw [not_or] at here
      simp [absent, Search.Tells, here.1, here.2, Bool.or_assoc]
  | .call _ args _ => by
    simpa [search] using (searchList_tells x seen args).andThen (tells_effect x)

theorem searchOption_tells (x : Nat) (seen : Bool) : ∀ e : Option Expr,
    (searchOption x seen e).Tells x seen (localsOption e) ((nodesOption e).any isEffect)
  | none => by simp [searchOption, Search.Tells, nodesOption]
  | some e => search_tells x seen e

theorem searchList_tells (x : Nat) (seen : Bool) : ∀ es : List Expr,
    (searchList x seen es).Tells x seen (localsList es) ((nodesList es).any isEffect)
  | [] => by simp [searchList, Search.Tells, nodesList]
  | e :: rest => by
    simpa [searchList, nodesList, hasEffect] using
      (search_tells x seen e).andThen fun seen => searchList_tells x seen rest

theorem searchFields_tells (x : Nat) (seen : Bool) : ∀ fields : List (String × Expr),
    (searchFields x seen fields).Tells x seen (localsFields fields)
      ((nodesFields fields).any isEffect)
  | [] => by simp [searchFields, Search.Tells, nodesFields]
  | (_, e) :: rest => by
    simpa [searchFields, nodesFields, hasEffect] using
      (search_tells x seen e).andThen fun seen => searchFields_tells x seen rest

end

end Ir.Expr

/-! ### Moving an effect -/

namespace Probe

/-- The second probe evaluates `init` somewhere on its way, where the first finds its value in `x`.
If `init` stops, so does the second probe, unless it stops before with a fault. -/
def Moves (p : Program) (x : Nat) (init : Expr) : Relation := fun _ a b => ∀ m : Machine,
  (∀ s, eval p init m = .error s → b m = .error s ∨ ∃ e, b m = .error ⟨e, true⟩) ∧
  ∀ v m', eval p init m = .ok (v, m') →
    Alike (SameBut x) (a { m' with env := m'.env.set x v }) (b m)

variable {p : Program} {x : Nat} {init : Expr} {α β : Type}

/-- The effect moves into the first of two steps. -/
theorem Moves.first {a b : Probe α} {f : α → Probe β} (moves : Moves p x init α a b)
    (rest : ∀ v, KeepsStep (SameBut x) β (f v) (f v)) : Moves p x init β (a >>= f) (b >>= f) := by
  intro m
  obtain ⟨stops, goes⟩ := moves m
  refine ⟨fun s stopped => ?_, fun v m' ran => ?_⟩
  · rw [bind_apply]
    rcases stops s stopped with same | ⟨e, fault⟩
    · exact .inl (by rw [same]; rfl)
    · exact .inr ⟨e, by rw [fault]; rfl⟩
  · exact (goes v m' ran).bind rest

/-- The effect moves past a step without effects. -/
theorem Moves.later (isolated : p.Isolated) {names : List Nat} {a : Probe α} {f g : α → Probe β}
    (still : PureOn names α a a) (absent : x ∉ names) (moves : ∀ v, Moves p x init β (f v) (g v)) :
    Moves p x init β (a >>= f) (a >>= g) := by
  intro m
  refine ⟨fun s stopped => ?_, fun v m' ran => ?_⟩
  · rw [bind_apply]
    rcases still m m (fun _ _ => rfl) with ⟨w, value, -⟩ | ⟨e, fault, -⟩
    · rw [value]
      exact (moves w m).1 s stopped
    · exact .inr ⟨e, by rw [fault]; rfl⟩
  · have agree : ∀ y ∈ names,
        ({ m' with env := m'.env.set x v } : Machine).env.get? y = m.env.get? y := by
      intro y member
      have other : y ≠ x := fun same => absent (same ▸ member)
      rw [Env.get?_set, if_neg other, env_of_eval isolated ran]
    rw [bind_apply, bind_apply]
    rcases still m _ agree with ⟨w, here, there⟩ | ⟨e, here, there⟩
    · rw [here, there]
      exact (moves w m).2 v m' ran
    · rw [here, there]
      rfl

/-- At the place of the binding itself, the two probes meet. -/
theorem moves_var (y : Local) (here : y.id = x) :
    Moves p x init _ (part (Run.valueOf y)) (eval p init) := by
  intro m
  refine ⟨fun s stopped => .inl stopped, fun v m' ran => ?_⟩
  rw [part_valueOf, here, Env.get?_set, if_pos rfl, ran]
  exact ⟨rfl, rfl, rfl, sameBut_set x m'.env v⟩

/-- Nothing is found early after an effect. -/
theorem not_early {names : List Nat} {effect : Bool} {s : Search}
    (told : s.Tells x true names effect) : s ≠ .found false := by
  rintro rfl
  cases told.2 rfl

/-- A binding that is found early is in the first part, or in the second and the first is free of
effects. -/
theorem early_cases {e : Expr} {next : Bool → Search} (after : next true ≠ .found false)
    (early : (e.search x false).andThen next = .found false) :
    e.search x false = .found false ∨
      x ∉ e.locals ∧ e.hasEffect = false ∧ next false = .found false := by
  have told := e.search_tells x false
  cases found : e.search x false with
  | found late =>
    rw [found] at early
    exact .inl early
  | passed out =>
    rw [found] at early told
    obtain ⟨absent, rfl⟩ := told
    refine .inr ⟨absent, ?_⟩
    cases effect : e.hasEffect with
    | true =>
      rw [effect] at early
      exact absurd early after
    | false =>
      rw [effect] at early
      exact ⟨rfl, early⟩

theorem mem_of_early {e : Expr} (early : e.search x false = .found false) : x ∈ e.locals := by
  have told := e.search_tells x false
  rw [early] at told
  exact told.1

mutual

/-- The effects of `init` move to the place of `x`, if it is found early and is the only one. -/
theorem moves_eval (isolated : p.Isolated) : ∀ e : Expr, e.search x false = .found false →
    e.locals.count x ≤ 1 → Moves p x init _ (eval p e) (eval p (e.subst ⟨x, init⟩))
  | .lit _ | .enumValue _ _ | .absent | .newList | .newMap | .read _ | .callDecode _ => by
    intro early
    simp [Expr.search] at early
  | .var y => by
    intro early _
    have here : y.id = x := (List.mem_singleton.mp (mem_of_early early)).symm
    simp only [eval, Expr.subst, if_pos here]
    exact moves_var y here
  | .deref e | .borrow e | .present e => by
    intro early once
    simp only [eval, Expr.subst]
    exact moves_eval isolated e early (by simpa using once)
  | .field e name => by
    intro early once
    simp only [eval, Expr.subst]
    exact (moves_eval isolated e early (by simpa using once)).first fun v =>
      (compatible_keepsStep _).part (Run.settled_fieldOf v name)
  | .toId type e => by
    intro early once
    simp only [eval, Expr.subst]
    exact (moves_eval isolated e early (by simpa using once)).first fun v =>
      (compatible_keepsStep _).part (Run.settled_idOfName p.code type v)
  | .cast e kind => by
    intro early once
    have c := compatible_keepsStep (SameBut x)
    simp only [eval, Expr.subst]
    exact (moves_eval isolated e early (by simpa using once)).first fun v =>
      c.bind (c.part (Run.settled_asInteger v)) fun _ => c.pure _
  | .isPresent e => by
    intro early once
    simp only [eval, Expr.subst]
    exact (moves_eval isolated e early (by simpa using once)).first fun _ =>
      (compatible_keepsStep _).pure _
  | .len e => by
    intro early once
    have c := compatible_keepsStep (SameBut x)
    simp only [eval, Expr.subst]
    exact (moves_eval isolated e early (by simpa using once)).first fun v =>
      c.bind (c.part (Run.settled_lengthOf v)) fun _ => c.pure _
  | .fromId type e => by
    intro early once
    simp only [eval, Expr.subst]
    rcases early_cases (by simp) early with inside | ⟨_, _, after⟩
    · exact (moves_eval isolated e inside (by simpa using once)).first fun v =>
        keepsStep_isolated false (Run.settled_nameOfId p.code type v).isolated
    · cases after
  | .struct _ fields => by
    intro early once
    simp only [eval, Expr.subst]
    exact (moves_evalFields isolated fields early (by simpa using once)).first fun _ =>
      (compatible_keepsStep _).pure _
  | .variant _ _ (some e) => by
    intro early once
    have c := compatible_keepsStep (SameBut x)
    simp only [eval, evalOption, Expr.subst, Expr.substOption]
    exact ((moves_eval isolated e early (by simpa using once)).first fun _ => c.pure _).first
      fun _ => c.pure _
  | .variant _ _ none => by
    intro early
    simp [Expr.search, Expr.searchOption] at early
  | .binary op a b => by
    intro early once
    have c := compatible_keepsStep (SameBut x)
    rw [Expr.locals_binary] at once
    simp only [eval, Expr.subst]
    rcases early_cases (not_early (b.search_tells x true)) early with inside | ⟨absent, still, after⟩
    · have free := Expr.not_mem_right once (mem_of_early inside)
      rw [b.subst_of_not_mem _ free]
      exact (moves_eval isolated a inside (Expr.count_left_le once)).first fun v =>
        c.bind (c.part (Run.settled_leftOperand op v)) fun _ =>
          c.bind (keepsStep_eval isolated free) fun w => c.part (Run.settled_binary op v w)
    · rw [a.subst_of_not_mem _ absent]
      refine Moves.later isolated (pureOn_eval p still fun _ member => member) absent fun v => ?_
      refine Moves.later isolated ((compatible_pureOn a.locals).part
        (Run.settled_leftOperand op v)) absent fun _ => ?_
      exact (moves_eval isolated b after (Expr.count_right_le once)).first fun w =>
        c.part (Run.settled_binary op v w)
  | .pair a b => by
    intro early once
    have c := compatible_keepsStep (SameBut x)
    rw [Expr.locals_pair] at once
    simp only [eval, Expr.subst]
    rcases early_cases (not_early (b.search_tells x true)) early with inside | ⟨absent, still, after⟩
    · have free := Expr.not_mem_right once (mem_of_early inside)
      rw [b.subst_of_not_mem _ free]
      exact (moves_eval isolated a inside (Expr.count_left_le once)).first fun v =>
        c.bind (keepsStep_eval isolated free) fun w => c.pure _
    · rw [a.subst_of_not_mem _ absent]
      refine Moves.later isolated (pureOn_eval p still fun _ member => member) absent fun v => ?_
      exact (moves_eval isolated b after (Expr.count_right_le once)).first fun w => c.pure _
  | .cond test yes no => by
    intro early once
    have c := compatible_keepsStep (SameBut x)
    rw [Expr.locals_cond] at once
    simp only [eval, Expr.subst]
    rcases early_cases (by split <;> simp) early with inside | ⟨_, _, after⟩
    · have free := Expr.not_mem_right once (mem_of_early inside)
      rw [List.mem_append, not_or] at free
      rw [yes.subst_of_not_mem _ free.1, no.subst_of_not_mem _ free.2]
      refine (moves_eval isolated test inside (Expr.count_left_le once)).first fun v =>
        c.bind (c.part (Run.settled_asTruth v)) fun truth => ?_
      cases truth with
      | true => exact keepsStep_eval isolated free.1
      | false => exact keepsStep_eval isolated free.2
    · split at after <;> cases after
  | .call path args fallible => by
    intro early once
    simp only [eval, Expr.subst]
    have inside : Expr.searchList x false args = .found false := by
      simp only [Expr.search] at early
      cases found : Expr.searchList x false args with
      | found late =>
        rw [found] at early
        exact early
      | passed out =>
        rw [found] at early
        cases early
    exact (moves_evalList isolated args inside (by simpa using once)).first fun values =>
      keepsStep_isolated false (Run.isolated_callHost p.code path values fallible)

theorem moves_evalList (isolated : p.Isolated) : ∀ es : List Expr,
    Expr.searchList x false es = .found false → (Expr.localsList es).count x ≤ 1 →
    Moves p x init _ (evalList p es) (evalList p (Expr.substList ⟨x, init⟩ es))
  | [] => by
    intro early
    simp [Expr.searchList] at early
  | e :: rest => by
    intro early once
    have c := compatible_keepsStep (SameBut x)
    rw [Expr.localsList_cons] at once
    simp only [evalList, Expr.substList]
    rcases early_cases (not_early (Expr.searchList_tells x true rest)) early with
      inside | ⟨absent, still, after⟩
    · have free := Expr.not_mem_right once (mem_of_early inside)
      rw [Expr.substList_of_not_mem _ rest free]
      exact (moves_eval isolated e inside (Expr.count_left_le once)).first fun v =>
        c.bind (keepsStep_evalList isolated free) fun _ => c.pure _
    · rw [e.subst_of_not_mem _ absent]
      refine Moves.later isolated (pureOn_eval p still fun _ member => member) absent fun v => ?_
      exact (moves_evalList isolated rest after (Expr.count_right_le once)).first fun _ => c.pure _

theorem moves_evalFields (isolated : p.Isolated) : ∀ fields : List (String × Expr),
    Expr.searchFields x false fields = .found false → (Expr.localsFields fields).count x ≤ 1 →
    Moves p x init _ (evalFields p fields) (evalFields p (Expr.substFields ⟨x, init⟩ fields))
  | [] => by
    intro early
    simp [Expr.searchFields] at early
  | (name, e) :: rest => by
    intro early once
    have c := compatible_keepsStep (SameBut x)
    rw [Expr.localsFields_cons] at once
    simp only [evalFields, Expr.substFields]
    rcases early_cases (not_early (Expr.searchFields_tells x true rest)) early with
      inside | ⟨absent, still, after⟩
    · have free := Expr.not_mem_right once (mem_of_early inside)
      rw [Expr.substFields_of_not_mem _ rest free]
      exact (moves_eval isolated e inside (Expr.count_left_le once)).first fun v =>
        c.bind (keepsStep_evalFields isolated free) fun _ => c.pure _
    · rw [e.subst_of_not_mem _ absent]
      refine Moves.later isolated (pureOn_eval p still fun _ member => member) absent fun v => ?_
      exact (moves_evalFields isolated rest after (Expr.count_right_le once)).first fun _ =>
        c.pure _

end

end Probe

end WireSchema
