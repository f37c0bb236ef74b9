import WireSchema.Ir.Elision

/-!
# Substitution

Elision puts an expression in the place of the only use of a binding. For reasoning it is simpler to
replace every use; the two agree where there is at most one.
-/

namespace WireSchema.Ir

namespace Expr

/-! ### The bindings of an expression -/

@[simp]
theorem locals_lit (l : Literal) : (lit l).locals = [] := rfl

@[simp]
theorem locals_var (x : Local) : (var x).locals = [x.id] := rfl

@[simp]
theorem locals_deref (e : Expr) : (deref e).locals = e.locals := rfl

@[simp]
theorem locals_borrow (e : Expr) : (borrow e).locals = e.locals := rfl

@[simp]
theorem locals_read (p : Primitive) : (read p).locals = [] := rfl

@[simp]
theorem locals_field (e : Expr) (name : String) : (field e name).locals = e.locals := rfl

/-- The bindings of the expressions of fields. -/
def localsFields (fields : List (String × Expr)) : List Nat :=
  (nodesFields fields).filterMap localId?

/-- The bindings of an expression that may be missing. -/
def localsOption (e : Option Expr) : List Nat := (nodesOption e).filterMap localId?

/-- The bindings of several expressions. -/
def localsList (es : List Expr) : List Nat := (nodesList es).filterMap localId?

@[simp]
theorem localsFields_nil : localsFields [] = [] := rfl

@[simp]
theorem localsFields_cons (name : String) (e : Expr) (rest : List (String × Expr)) :
    localsFields ((name, e) :: rest) = e.locals ++ localsFields rest :=
  List.filterMap_append

@[simp]
theorem localsOption_none : localsOption none = [] := rfl

@[simp]
theorem localsOption_some (e : Expr) : localsOption (some e) = e.locals := rfl

@[simp]
theorem localsList_nil : localsList [] = [] := rfl

@[simp]
theorem localsList_cons (e : Expr) (rest : List Expr) :
    localsList (e :: rest) = e.locals ++ localsList rest :=
  List.filterMap_append

@[simp]
theorem locals_struct (type : String) (fields : List (String × Expr)) :
    (struct type fields).locals = localsFields fields := rfl

@[simp]
theorem locals_variant (type name : String) (payload : Option Expr) :
    (variant type name payload).locals = localsOption payload := rfl

@[simp]
theorem locals_enumValue (type name : String) : (enumValue type name).locals = [] := rfl

@[simp]
theorem locals_fromId (type : String) (e : Expr) : (fromId type e).locals = e.locals := rfl

@[simp]
theorem locals_toId (type : String) (e : Expr) : (toId type e).locals = e.locals := rfl

@[simp]
theorem locals_binary (op : BinOp) (a b : Expr) :
    (binary op a b).locals = a.locals ++ b.locals :=
  List.filterMap_append

@[simp]
theorem locals_cast (e : Expr) (kind : IntKind) : (cast e kind).locals = e.locals := rfl

@[simp]
theorem locals_cond (c t o : Expr) :
    (cond c t o).locals = c.locals ++ (t.locals ++ o.locals) := by
  have split : (cond c t o).locals = (nodes c ++ nodes t ++ nodes o).filterMap localId? := rfl
  rw [split, List.filterMap_append, List.filterMap_append, List.append_assoc]
  rfl

@[simp]
theorem locals_present (e : Expr) : (present e).locals = e.locals := rfl

@[simp]
theorem locals_absent : absent.locals = [] := rfl

@[simp]
theorem locals_isPresent (e : Expr) : (isPresent e).locals = e.locals := rfl

@[simp]
theorem locals_len (e : Expr) : (len e).locals = e.locals := rfl

@[simp]
theorem locals_newList : newList.locals = [] := rfl

@[simp]
theorem locals_newMap : newMap.locals = [] := rfl

@[simp]
theorem locals_pair (a b : Expr) : (pair a b).locals = a.locals ++ b.locals :=
  List.filterMap_append

@[simp]
theorem locals_callDecode (codec : String) : (callDecode codec).locals = [] := rfl

@[simp]
theorem locals_call (path : String) (args : List Expr) (fallible : Bool) :
    (call path args fallible).locals = localsList args := rfl

theorem mentions_iff (e : Expr) (x : Nat) : e.mentions x = true ↔ x ∈ e.locals := by
  simp [mentions]

/-! ### Replacing all uses -/

mutual

/-- The expression with every occurrence of the replaced binding gone. -/
def subst (r : Replacement) : Expr → Expr
  | .var y => if y.id = r.binding then r.image else .var y
  | .lit l => .lit l
  | .read p => .read p
  | .enumValue ty name => .enumValue ty name
  | .absent => .absent
  | .newList => .newList
  | .newMap => .newMap
  | .callDecode codec => .callDecode codec
  | .deref e => .deref (subst r e)
  | .borrow e => .borrow (subst r e)
  | .field e name => .field (subst r e) name
  | .cast e kind => .cast (subst r e) kind
  | .present e => .present (subst r e)
  | .isPresent e => .isPresent (subst r e)
  | .len e => .len (subst r e)
  | .fromId ty e => .fromId ty (subst r e)
  | .toId ty e => .toId ty (subst r e)
  | .struct ty fields => .struct ty (substFields r fields)
  | .variant ty name payload => .variant ty name (substOption r payload)
  | .binary op a b => .binary op (subst r a) (subst r b)
  | .pair a b => .pair (subst r a) (subst r b)
  | .cond c t o => .cond (subst r c) (subst r t) (subst r o)
  | .call path args fallible => .call path (substList r args) fallible

def substOption (r : Replacement) : Option Expr → Option Expr
  | none => none
  | some e => some (subst r e)

def substList (r : Replacement) : List Expr → List Expr
  | [] => []
  | e :: rest => subst r e :: substList r rest

def substFields (r : Replacement) : List (String × Expr) → List (String × Expr)
  | [] => []
  | (name, e) :: rest => (name, subst r e) :: substFields r rest

end

mutual

/-- Nothing happens to an expression without the binding. -/
theorem subst_of_not_mem (r : Replacement) : ∀ e : Expr, r.binding ∉ e.locals → e.subst r = e
  | .lit _ | .read _ | .enumValue _ _ | .absent | .newList | .newMap | .callDecode _ => by
    simp [subst]
  | .var y => by
    intro absent
    have other : y.id ≠ r.binding := by
      intro same
      exact absent (by simp [same])
    simp [subst, other]
  | .deref e | .borrow e | .field e _ | .cast e _ | .present e | .isPresent e | .len e => by
    intro absent
    simp [subst, subst_of_not_mem r e (by simpa using absent)]
  | .fromId _ e | .toId _ e => by
    intro absent
    simp [subst, subst_of_not_mem r e (by simpa using absent)]
  | .struct _ fields => by
    intro absent
    simp [subst, substFields_of_not_mem r fields (by simpa using absent)]
  | .variant _ _ payload => by
    intro absent
    simp [subst, substOption_of_not_mem r payload (by simpa using absent)]
  | .binary _ a b | .pair a b => by
    intro absent
    simp only [locals_binary, locals_pair, List.mem_append, not_or] at absent
    simp [subst, subst_of_not_mem r a absent.1, subst_of_not_mem r b absent.2]
  | .cond c t o => by
    intro absent
    simp only [locals_cond, List.mem_append, not_or] at absent
    simp [subst, subst_of_not_mem r c absent.1, subst_of_not_mem r t absent.2.1,
      subst_of_not_mem r o absent.2.2]
  | .call _ args _ => by
    intro absent
    simp [subst, substList_of_not_mem r args (by simpa using absent)]

theorem substOption_of_not_mem (r : Replacement) :
    ∀ e : Option Expr, r.binding ∉ localsOption e → substOption r e = e
  | none => fun _ => rfl
  | some e => fun absent => by simp [substOption, subst_of_not_mem r e absent]

theorem substList_of_not_mem (r : Replacement) :
    ∀ es : List Expr, r.binding ∉ localsList es → substList r es = es
  | [] => fun _ => rfl
  | e :: rest => by
    intro absent
    simp only [localsList_cons, List.mem_append, not_or] at absent
    simp [substList, subst_of_not_mem r e absent.1, substList_of_not_mem r rest absent.2]

theorem substFields_of_not_mem (r : Replacement) :
    ∀ fields : List (String × Expr), r.binding ∉ localsFields fields → substFields r fields = fields
  | [] => fun _ => rfl
  | (_, e) :: rest => by
    intro absent
    simp only [localsFields_cons, List.mem_append, not_or] at absent
    simp [substFields, subst_of_not_mem r e absent.1, substFields_of_not_mem r rest absent.2]

end

/-- What replacing makes of a part with the given bindings, if `x` is among them. -/
abbrev replacedIn {α : Type} (x : Nat) (locals : List Nat) (replaced : α) : Option α :=
  if x ∈ locals then some replaced else none

theorem not_mem_right {x : Nat} {front back : List Nat} (once : (front ++ back).count x ≤ 1)
    (used : x ∈ front) : x ∉ back := by
  rw [List.count_append] at once
  have one : 0 < front.count x := List.count_pos_iff.mpr used
  exact List.count_eq_zero.mp (by omega)

theorem count_left_le {x : Nat} {front back : List Nat} (once : (front ++ back).count x ≤ 1) :
    front.count x ≤ 1 := by
  rw [List.count_append] at once
  omega

theorem count_right_le {x : Nat} {front back : List Nat} (once : (front ++ back).count x ≤ 1) :
    back.count x ≤ 1 := by
  rw [List.count_append] at once
  omega

/-- Of two parts with at most one use between them, the first that has a use is replaced. -/
theorem replacedIn_append {α β γ : Type} {x : Nat} {front back : List Nat} {a a' : α} {b b' : β}
    (join : α → β → γ) (once : (front ++ back).count x ≤ 1) (keepsLeft : x ∉ front → a' = a)
    (keepsRight : x ∉ back → b' = b) {out : Option γ}
    (first : x ∈ front → out = some (join a' b))
    (second : x ∉ front → out = (replacedIn x back b').map (join a)) :
    out = replacedIn x (front ++ back) (join a' b') := by
  by_cases left : x ∈ front
  · simp [first left, left, keepsRight (not_mem_right once left)]
  · by_cases right : x ∈ back <;> simp [second left, left, right, keepsLeft left]

theorem replacedIn_map {α β : Type} (x : Nat) (locals : List Nat) (a : α) (f : α → β) :
    (replacedIn x locals a).map f = replacedIn x locals (f a) := by
  by_cases used : x ∈ locals <;> simp [replacedIn, used]

mutual

/-- Of at most one use, replacing the first replaces all. -/
theorem substFirst_eq (r : Replacement) : ∀ e : Expr, e.locals.count r.binding ≤ 1 →
    e.substFirst r = replacedIn r.binding e.locals (e.subst r)
  | .lit _ | .read _ | .enumValue _ _ | .absent | .newList | .newMap | .callDecode _ => by
    simp [substFirst, replacedIn]
  | .var y => by
    intro _
    by_cases same : y.id = r.binding
    · simp [substFirst, subst, replacedIn, same]
    · simp [substFirst, replacedIn, same, Ne.symm same]
  | .deref e | .borrow e | .field e _ | .cast e _ | .present e | .isPresent e | .len e => by
    intro once
    rw [substFirst, substFirst_eq r e (by simpa using once), replacedIn_map]
    simp [subst]
  | .fromId _ e | .toId _ e => by
    intro once
    rw [substFirst, substFirst_eq r e (by simpa using once), replacedIn_map]
    simp [subst]
  | .struct _ fields => by
    intro once
    rw [substFirst, substFirstFields_eq r fields (by simpa using once), replacedIn_map]
    simp [subst]
  | .variant _ _ payload => by
    intro once
    rw [substFirst, substFirstOption_eq r payload (by simpa using once), replacedIn_map]
    simp [subst]
  | .binary op a b => by
    intro once
    rw [locals_binary] at once ⊢
    refine replacedIn_append (binary op) once (subst_of_not_mem r a) (subst_of_not_mem r b) ?_ ?_
      <;> intro left
      <;> simp [replacedIn, substFirst, substFirst_eq r a (count_left_le once),
        substFirst_eq r b (count_right_le once), left]
  | .pair a b => by
    intro once
    rw [locals_pair] at once ⊢
    refine replacedIn_append pair once (subst_of_not_mem r a) (subst_of_not_mem r b) ?_ ?_
      <;> intro left
      <;> simp [replacedIn, substFirst, substFirst_eq r a (count_left_le once),
        substFirst_eq r b (count_right_le once), left]
  | .cond c t o => by
    intro once
    rw [locals_cond] at once ⊢
    have branches := count_right_le once
    have inner : (cond c t o).substFirst r = (if r.binding ∈ c.locals then
        some (cond (c.subst r) t o) else
        replacedIn r.binding (t.locals ++ o.locals) (cond c (t.subst r) (o.subst r))) := by
      by_cases test : r.binding ∈ c.locals
      · simp [replacedIn, substFirst, substFirst_eq r c (count_left_le once), test]
      · rw [if_neg test]
        refine replacedIn_append (cond c) branches (subst_of_not_mem r t) (subst_of_not_mem r o)
          ?_ ?_
          <;> intro left
          <;> simp [replacedIn, substFirst, substFirst_eq r c (count_left_le once), test,
            substFirst_eq r t (count_left_le branches), substFirst_eq r o (count_right_le branches),
            left]
    rw [inner]
    by_cases test : r.binding ∈ c.locals
    · have branchesFree := not_mem_right once test
      rw [List.mem_append, not_or] at branchesFree
      simp [replacedIn, subst, test, subst_of_not_mem r t branchesFree.1,
        subst_of_not_mem r o branchesFree.2]
    · simp [replacedIn, subst, test, subst_of_not_mem r c test]
  | .call _ args _ => by
    intro once
    rw [substFirst, substFirstList_eq r args (by simpa using once), replacedIn_map]
    simp [subst]

theorem substFirstOption_eq (r : Replacement) :
    ∀ e : Option Expr, (localsOption e).count r.binding ≤ 1 →
      substFirstOption r e = replacedIn r.binding (localsOption e) (substOption r e)
  | none => fun _ => rfl
  | some e => by
    intro once
    rw [substFirstOption, substFirst_eq r e once, replacedIn_map]
    rfl

theorem substFirstList_eq (r : Replacement) :
    ∀ es : List Expr, (localsList es).count r.binding ≤ 1 →
      substFirstList r es = replacedIn r.binding (localsList es) (substList r es)
  | [] => fun _ => rfl
  | e :: rest => by
    intro once
    rw [localsList_cons] at once ⊢
    refine replacedIn_append List.cons once (subst_of_not_mem r e) (substList_of_not_mem r rest)
      ?_ ?_
      <;> intro left
      <;> simp [replacedIn, substFirstList, substFirst_eq r e (count_left_le once),
        substFirstList_eq r rest (count_right_le once), left]

theorem substFirstFields_eq (r : Replacement) :
    ∀ fields : List (String × Expr), (localsFields fields).count r.binding ≤ 1 →
      substFirstFields r fields =
        replacedIn r.binding (localsFields fields) (substFields r fields)
  | [] => fun _ => rfl
  | (name, e) :: rest => by
    intro once
    rw [localsFields_cons] at once ⊢
    refine replacedIn_append (fun e rest => (name, e) :: rest) once (subst_of_not_mem r e)
      (substFields_of_not_mem r rest) ?_ ?_
      <;> intro left
      <;> simp [replacedIn, substFirstFields, substFirst_eq r e (count_left_le once),
        substFirstFields_eq r rest (count_right_le once), left]

end

/-! ### The bindings after replacing -/

mutual

/-- Each use of the replaced binding makes way for the uses in its image. -/
theorem count_locals_subst_le (r : Replacement) (y : Nat) : ∀ e : Expr,
    (e.subst r).locals.count y ≤
      e.locals.count y + e.locals.count r.binding * r.image.locals.count y
  | .lit _ | .read _ | .enumValue _ _ | .absent | .newList | .newMap | .callDecode _ => by
    simp [subst]
  | .var z => by
    by_cases here : z.id = r.binding
    · simp [subst, here]
    · simp [subst, here]
  | .deref e | .borrow e | .field e _ | .cast e _ | .present e | .isPresent e | .len e => by
    simpa [subst] using count_locals_subst_le r y e
  | .fromId _ e | .toId _ e => by simpa [subst] using count_locals_subst_le r y e
  | .struct _ fields => by simpa [subst] using count_localsFields_subst_le r y fields
  | .variant _ _ none => by simp [subst, substOption]
  | .variant _ _ (some e) => by simpa [subst, substOption] using count_locals_subst_le r y e
  | .binary _ a b | .pair a b => by
    have left := count_locals_subst_le r y a
    have right := count_locals_subst_le r y b
    simp only [subst, locals_binary, locals_pair, List.count_append, Nat.add_mul]
    omega
  | .cond c t o => by
    have test := count_locals_subst_le r y c
    have yes := count_locals_subst_le r y t
    have no := count_locals_subst_le r y o
    simp only [subst, locals_cond, List.count_append, Nat.add_mul]
    omega
  | .call _ args _ => by simpa [subst] using count_localsList_subst_le r y args

theorem count_localsList_subst_le (r : Replacement) (y : Nat) : ∀ es : List Expr,
    (localsList (substList r es)).count y ≤
      (localsList es).count y + (localsList es).count r.binding * r.image.locals.count y
  | [] => by simp [substList]
  | e :: rest => by
    have first := count_locals_subst_le r y e
    have others := count_localsList_subst_le r y rest
    simp only [substList, localsList_cons, List.count_append, Nat.add_mul]
    omega

theorem count_localsFields_subst_le (r : Replacement) (y : Nat) :
    ∀ fields : List (String × Expr), (localsFields (substFields r fields)).count y ≤
      (localsFields fields).count y + (localsFields fields).count r.binding * r.image.locals.count y
  | [] => by simp [substFields]
  | (_, e) :: rest => by
    have first := count_locals_subst_le r y e
    have others := count_localsFields_subst_le r y rest
    simp only [substFields, localsFields_cons, List.count_append, Nat.add_mul]
    omega

end

theorem mem_locals_subst {r : Replacement} {y : Nat} {e : Expr} (used : y ∈ (e.subst r).locals) :
    y ∈ e.locals ∨ y ∈ r.image.locals := by
  have bound := count_locals_subst_le r y e
  have positive : 0 < (e.subst r).locals.count y := List.count_pos_iff.mpr used
  by_cases image : y ∈ r.image.locals
  · exact .inr image
  · rw [List.count_eq_zero_of_not_mem image] at bound
    exact .inl (List.count_pos_iff.mp (by omega))

end Expr

end WireSchema.Ir
