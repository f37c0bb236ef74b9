import WireSchema.Proofs.Refusals
import WireSchema.Proofs.Shape.Grounded

/-!
# Questions that are settled

A question about a shape whose answer lies behind its references is settled if following more
references than there are labels changes nothing, and none is lost. All questions about a grounded
shape are. So its canonical name, the shape behind its aliases, its stored fields and the rules for
its slots are found, or they fail for a reason of their own.

## Main results

* `Grounded.settled`: questions about grounded shapes are settled.
* `Grounded.resolves`: there is a shape behind the aliases and references of a grounded shape.
-/

namespace WireSchema

/-- The error is neither that shapes refer to each other without end nor that a reference leads
nowhere. -/
def SchemaError.IsFinite : SchemaError → Prop
  | .tooDeep | .unresolvedReference _ => False
  | _ => True

theorem SchemaError.IsFinite.apart {e : SchemaError} (finite : e.IsFinite) :
    e ≠ .tooDeep ∧ ∀ label, e ≠ .unresolvedReference label := by
  constructor
  · rintro rfl
    exact finite
  · rintro label rfl
    exact finite

namespace Shape

variable {refs : Refs} {rank : String → Nat} {n : Nat}

/-- Following more references than there are labels changes nothing, and none is lost. -/
def Settled {α : Type} (refs : Refs) (ask : (String → α) → Shape → α) (s : Shape) : Prop :=
  ∀ (lost lost' : String → α) (more : Nat),
    following refs ask lost (refs.length + more) s = following refs ask lost' refs.length s

theorem Grounded.settled {α : Type} {ask : (String → α) → Shape → α} (looks : LooksAtLabels ask)
    (ranked : refs.Ranked rank) {s : Shape} (grounded : Grounded refs n s) :
    s.Settled refs ask := by
  intro lost lost' more
  have met {label : String} {t : Shape} (reaches : Reaches refs s t) (member : label ∈ t.labels) :
      Reaches refs s (.ref label) := reaches.trans (reaches_label member)
  have same (label : String) (reaches : Reaches refs s (.ref label))
      (missing : refs.lookup label = none) : lost label = lost' label := by
    obtain ⟨target, found⟩ := (grounded.reached reaches).known
    rw [missing] at found
    cases found
  have behind (label : String) (target : Shape) (reaches : Reaches refs s (.ref label))
      (found : refs.lookup label = some target) (other : String) (member : other ∈ target.labels) :
      Reaches refs s (.ref other) := met (reaches.tail (Option.mem_toList.mpr found)) member
  -- Ranks fall from reference to reference and are below the number of labels.
  refine following_stable looks ranked same behind refs.length _ _ s (fun label member => ?_)
    (Nat.le_add_right _ _) (Nat.le_refl _)
  have reaches := met .refl member
  obtain ⟨target, found⟩ := (grounded.reached reaches).known
  exact ⟨ranked.bounded label target found, reaches⟩

/-- A settled answer has every property that answering keeps, if any answer has it. -/
theorem Settled.holds {α : Type} {ask : (String → α) → Shape → α} {s : Shape}
    (settled : s.Settled refs ask) {P : α → Prop}
    (keeps : ∀ answer : String → α, (∀ label, P (answer label)) → ∀ s, P (ask answer s))
    {some : α} (holds : P some) (lost : String → α) : P (following refs ask lost refs.length s) := by
  -- If an answer with the property stands in for what is lost, every answer has the property.
  have all (fuel : Nat) : ∀ s, P (following refs ask (fun _ => some) fuel s) := by
    induction fuel with
    | zero => exact keeps _ fun _ => holds
    | succ fuel ih =>
      refine keeps _ fun label => ?_
      cases refs.lookup label with
      | none => exact holds
      | some target => exact ih target
  have same := settled lost (fun _ => some) 0
  rw [Nat.add_zero] at same
  rw [same]
  exact all refs.length s

/-! ### Names -/

section Names

variable {nameOf nameOf' : String → String}

mutual

theorem nameWith_congr : ∀ s : Shape, (∀ label ∈ s.labels, nameOf label = nameOf' label) →
    nameWith nameOf s = nameWith nameOf' s
  | .ref label, agree => agree label (List.mem_singleton.mpr rfl)
  | .optional value presence, agree => by
    have first := nameWith_congr value fun l member => agree l (List.mem_append_left _ member)
    have second := nameWith_congr presence fun l member => agree l (List.mem_append_right _ member)
    -- A plain boolean is left out of the name, so the two equations of `nameWith` are told apart.
    by_cases plain : presence = .prim .bool
    · subst plain
      simp only [nameWith, first]
    · rw [nameWith, nameWith, first, second]
      · exact plain
      · exact plain
  | .list item _, agree => by rw [nameWith, nameWith, nameWith_congr item agree]
  | .map key value _, agree => by
    have first := nameWith_congr key fun l member => agree l (List.mem_append_left _ member)
    have second := nameWith_congr value fun l member => agree l (List.mem_append_right _ member)
    rw [nameWith, nameWith, first, second]
  | .struct fields, agree => by rw [nameWith, nameWith, namesOfFields_congr fields agree]
  | .packed _ _ fields _, agree => by rw [nameWith, nameWith, namesOfFields_congr fields agree]
  | .flags _ _ fields _, agree => by rw [nameWith, nameWith, namesOfFields_congr fields agree]
  | .merged parts, agree => by rw [nameWith, nameWith, namesOfParts_congr parts agree]
  | .union _ tag variants tags, agree => by
    have first := nameWith_congr tag fun l member => agree l (List.mem_append_left _ member)
    have second := namesOfVariants_congr tags variants fun l member =>
      agree l (List.mem_append_right _ member)
    rw [nameWith, nameWith, first, second]
  | .prim _, _ | .enum _ _, _ | .slot _ _ _, _ | .alias _ _, _ | .exported _ _, _
  | .custom _ _ _, _ | .transformed _ _ _ _ _ _, _ | .literal _ (some _), _
  | .literal _ none, _ => by simp only [nameWith]

theorem namesOfFields_congr : ∀ fields : List Field,
    (∀ label ∈ labelsOfFields fields, nameOf label = nameOf' label) →
    namesOfFields nameOf fields = namesOfFields nameOf' fields
  | [], _ => rfl
  | ⟨_, shape, _⟩ :: rest, agree => by
    have first := nameWith_congr shape fun l member => agree l (List.mem_append_left _ member)
    have others := namesOfFields_congr rest fun l member => agree l (List.mem_append_right _ member)
    rw [namesOfFields, namesOfFields, first, others]

theorem namesOfParts_congr : ∀ parts : List Shape,
    (∀ label ∈ labelsOfParts parts, nameOf label = nameOf' label) →
    namesOfParts nameOf parts = namesOfParts nameOf' parts
  | [], _ => rfl
  | s :: rest, agree => by
    have first := nameWith_congr s fun l member => agree l (List.mem_append_left _ member)
    have others := namesOfParts_congr rest fun l member => agree l (List.mem_append_right _ member)
    rw [namesOfParts, namesOfParts, first, others]

theorem namesOfVariants_congr (tags : List (String × Literal)) : ∀ variants : List (String × Shape),
    (∀ label ∈ labelsOfVariants variants, nameOf label = nameOf' label) →
    namesOfVariants nameOf tags variants = namesOfVariants nameOf' tags variants
  | [], _ => rfl
  | (_, s) :: rest, agree => by
    have first := nameWith_congr s fun l member => agree l (List.mem_append_left _ member)
    have others := namesOfVariants_congr tags rest fun l member =>
      agree l (List.mem_append_right _ member)
    rw [namesOfVariants, namesOfVariants, first, others]

end

end Names

/-! ### Shapes behind aliases -/

theorem resolvedWith_congr : LooksAtLabels resolvedWith := by
  intro target target' s agree
  induction s using resolvedWith.induct with
  | case1 name inner ih | case2 name inner ih => exact ih agree
  | case3 label => exact agree label (List.mem_singleton.mpr rfl)
  | case4 s notAlias notExported notRef =>
    cases s with
    | «alias» => exact (notAlias _ _ rfl).elim
    | exported => exact (notExported _ _ rfl).elim
    | ref => exact (notRef _ rfl).elim
    | _ => rfl

theorem resolvedWith_found {target : String → Except SchemaError Shape}
    (found : ∀ label, ∃ t, target label = .ok t) (s : Shape) :
    ∃ t, resolvedWith target s = .ok t := by
  induction s using resolvedWith.induct with
  | case1 name inner ih | case2 name inner ih => exact ih
  | case3 label => exact found label
  | case4 s notAlias notExported notRef =>
    cases s with
    | «alias» => exact (notAlias _ _ rfl).elim
    | exported => exact (notExported _ _ rfl).elim
    | ref => exact (notRef _ rfl).elim
    | _ => exact ⟨_, rfl⟩

/-- A shape is found. -/
def Finds (result : Except SchemaError Shape) : Prop := ∃ t, result = .ok t

/-- There is a shape behind the aliases and references of a grounded shape. -/
theorem Grounded.resolves (ranked : refs.Ranked rank) {s : Shape} (grounded : Grounded refs n s) :
    ∃ t, s.resolved refs = .ok t := by
  have some : Finds (.ok s) := ⟨s, rfl⟩
  have found : Finds (following refs resolvedWith (.error <| .unresolvedReference ·) refs.length s) :=
    (grounded.settled resolvedWith_congr ranked).holds (fun _ => resolvedWith_found) some _
  exact found

/-! ### Stored fields -/

section StoredFields

variable {fieldsOf fieldsOf' : String → Except SchemaError (List Field)}

mutual

theorem storedFieldsWith_congr : ∀ s : Shape,
    (∀ label ∈ s.labels, fieldsOf label = fieldsOf' label) →
    storedFieldsWith refs fieldsOf s = storedFieldsWith refs fieldsOf' s
  | .ref label, agree => agree label (List.mem_singleton.mpr rfl)
  | .merged parts, agree => storedFieldsOfParts_congr parts agree
  | .alias _ inner, agree | .exported _ inner, agree => storedFieldsWith_congr inner agree
  | .struct _, _ | .packed _ _ _ _, _ | .flags _ _ _ _, _ | .prim _, _ | .optional _ _, _
  | .list _ _, _ | .map _ _ _, _ | .enum _ _, _ | .union _ _ _ _, _ | .slot _ _ _, _
  | .custom _ _ _, _ | .transformed _ _ _ _ _ _, _ | .literal _ _, _ => rfl

theorem storedFieldsOfParts_congr : ∀ parts : List Shape,
    (∀ label ∈ labelsOfParts parts, fieldsOf label = fieldsOf' label) →
    storedFieldsOfParts refs fieldsOf parts = storedFieldsOfParts refs fieldsOf' parts
  | [], _ => rfl
  | s :: rest, agree => by
    have first := storedFieldsWith_congr s fun l member => agree l (List.mem_append_left _ member)
    have others := storedFieldsOfParts_congr rest fun l member =>
      agree l (List.mem_append_right _ member)
    rw [storedFieldsOfParts, storedFieldsOfParts, first, others]

end

mutual

theorem finite_storedFieldsWith (labels : ∀ label, FailsOnly SchemaError.IsFinite (fieldsOf label)) :
    ∀ s : Shape, FailsOnly SchemaError.IsFinite (storedFieldsWith refs fieldsOf s)
  | .struct _ | .packed _ _ _ _ | .flags _ _ _ _ => failsOnly_ok _
  | .merged parts => finite_storedFieldsOfParts labels parts
  | .alias _ inner | .exported _ inner => finite_storedFieldsWith labels inner
  | .ref label => labels label
  | .prim _ | .optional _ _ | .list _ _ | .map _ _ _ | .enum _ _ | .union _ _ _ _ | .slot _ _ _
  | .custom _ _ _ | .transformed _ _ _ _ _ _ | .literal _ _ => failsOnly_error trivial

theorem finite_storedFieldsOfParts
    (labels : ∀ label, FailsOnly SchemaError.IsFinite (fieldsOf label)) :
    ∀ parts : List Shape, FailsOnly SchemaError.IsFinite (storedFieldsOfParts refs fieldsOf parts)
  | [] => failsOnly_ok []
  | s :: rest => by
    rw [storedFieldsOfParts]
    refine (finite_storedFieldsWith labels s).bind fun first => ?_
    exact (finite_storedFieldsOfParts labels rest).bind fun others => failsOnly_ok _

end

end StoredFields

theorem Grounded.finite_storedFields (ranked : refs.Ranked rank) {s : Shape}
    (grounded : Grounded refs n s) : FailsOnly SchemaError.IsFinite (s.storedFields refs) :=
  (grounded.settled storedFieldsWith_congr ranked).holds
    (fun _ labels => finite_storedFieldsWith labels) (failsOnly_ok []) _

/-! ### Bit slots -/

section Slots

variable {owner : String} {validOf validOf' : String → Except SchemaError Unit}

mutual

theorem slotsValidWith_congr : ∀ s : Shape,
    (∀ label ∈ s.labels, validOf label = validOf' label) →
    slotsValidWith owner validOf s = slotsValidWith owner validOf' s
  | .ref label, agree => agree label (List.mem_singleton.mpr rfl)
  | .merged parts, agree => slotsValidOfParts_congr parts agree
  | .alias _ inner, agree | .exported _ inner, agree => slotsValidWith_congr inner agree
  | .struct _, _ | .packed _ _ _ _, _ | .flags _ _ _ _, _ | .prim _, _ | .optional _ _, _
  | .list _ _, _ | .map _ _ _, _ | .enum _ _, _ | .union _ _ _ _, _ | .slot _ _ _, _
  | .custom _ _ _, _ | .transformed _ _ _ _ _ _, _ | .literal _ _, _ => rfl

theorem slotsValidOfParts_congr : ∀ parts : List Shape,
    (∀ label ∈ labelsOfParts parts, validOf label = validOf' label) →
    slotsValidOfParts owner validOf parts = slotsValidOfParts owner validOf' parts
  | [], _ => rfl
  | s :: rest, agree => by
    have first := slotsValidWith_congr s fun l member => agree l (List.mem_append_left _ member)
    have others := slotsValidOfParts_congr rest fun l member =>
      agree l (List.mem_append_right _ member)
    rw [slotsValidOfParts, slotsValidOfParts, first, others]

end

theorem finite_refuseSlots (group : Nat) (s : Shape) :
    FailsOnly SchemaError.IsFinite (refuseSlots owner group s) := by
  unfold refuseSlots
  split
  · exact failsOnly_error trivial
  · exact failsOnly_ok ()

theorem finite_packedFieldSlot (group : Nat) (f : Field) :
    FailsOnly SchemaError.IsFinite (packedFieldSlot owner group f) := by
  unfold packedFieldSlot
  split
  · exact failsOnly_ok _
  · exact failsOnly_error trivial

theorem finite_flagFieldSlot (group : Nat) (f : Field) :
    FailsOnly SchemaError.IsFinite (flagFieldSlot owner group f) := by
  unfold flagFieldSlot
  split
  · exact failsOnly_ok _
  · split
    · split
      · exact (finite_refuseSlots group _).bind fun _ => failsOnly_ok _
      · exact (finite_refuseSlots group _).bind fun _ => failsOnly_ok _
    · exact (finite_refuseSlots group _).bind fun _ => failsOnly_ok _

theorem finite_checkUses (used : List Nat) (left index : Nat) :
    FailsOnly SchemaError.IsFinite (checkUses owner used left index) := by
  induction left generalizing index with
  | zero => exact failsOnly_ok ()
  | succ left ih =>
    rw [checkUses]
    split
    · exact failsOnly_error trivial
    · exact ih _
    · exact failsOnly_error trivial

mutual

theorem finite_slotsValidWith (labels : ∀ label, FailsOnly SchemaError.IsFinite (validOf label)) :
    ∀ s : Shape, FailsOnly SchemaError.IsFinite (slotsValidWith owner validOf s)
  | .packed _ _ fields group => by
    refine (failsOnly_mapM fun f _ => finite_packedFieldSlot group f).bind fun used => ?_
    exact finite_checkUses used _ 0
  | .flags _ _ fields group => by
    refine (failsOnly_mapM fun f _ => finite_flagFieldSlot group f).bind fun used => ?_
    exact finite_checkUses _ _ 0
  | .merged parts => finite_slotsValidOfParts labels parts
  | .alias _ inner | .exported _ inner => finite_slotsValidWith labels inner
  | .ref label => labels label
  | .struct _ | .prim _ | .optional _ _ | .list _ _ | .map _ _ _ | .enum _ _ | .union _ _ _ _
  | .slot _ _ _ | .custom _ _ _ | .transformed _ _ _ _ _ _ | .literal _ _ => failsOnly_ok ()

theorem finite_slotsValidOfParts (labels : ∀ label, FailsOnly SchemaError.IsFinite (validOf label)) :
    ∀ parts : List Shape, FailsOnly SchemaError.IsFinite (slotsValidOfParts owner validOf parts)
  | [] => failsOnly_ok ()
  | s :: rest => by
    rw [slotsValidOfParts]
    exact (finite_slotsValidWith labels s).bind fun _ => finite_slotsValidOfParts labels rest

end

end Slots

theorem Grounded.finite_slotsValid (ranked : refs.Ranked rank) {s : Shape}
    (grounded : Grounded refs n s) (owner : String) :
    FailsOnly SchemaError.IsFinite (s.slotsValid refs owner) :=
  (grounded.settled slotsValidWith_congr ranked).holds (fun _ labels => finite_slotsValidWith labels)
    (failsOnly_ok ()) _

end Shape

end WireSchema
