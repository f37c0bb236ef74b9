import WireSchema.Proofs.Encoding.Fragments

/-!
# Encoders of structs and unions

The members of a struct are written one after another, and bit groups as one integer. For a union the
arm of the variant writes the tag and the members of the payload.
-/

namespace WireSchema

open Ir Wire Lowering

namespace Encoding

open Decoding (Programs)

variable {C : Programs} {order : ByteOrder} {refs : Refs} {low mid high : Nat}
  {front back stmts body : List Stmt} {src : Expr} {s : Shape}

/-! ### Single values -/

theorem encodes_prim (orders : ∀ p, C.holds p → p.order = order) (prim : Primitive) (n : Nat) :
    Encodes C (HasValue (.prim prim) src) (Layout.Written order refs (.prim prim)) n n
      [.write prim src] := by
  refine encodes_write n fun p holds v bytes made => ?_
  cases made with
  | prim _ made => exact ⟨v, orders p holds ▸ made, fun m has => has rfl m (.refl _ _)⟩
  | struct like => cases like

/-- A literal that takes up bytes is written whatever there is. -/
theorem encodes_literal (orders : ∀ p, C.holds p → p.order = order) (l : Literal) (prim : Primitive)
    (n : Nat) : Encodes C (HasValue (.literal l (some prim)) src)
      (Layout.Written order refs (.literal l (some prim))) n n [.write prim (.lit l)] := by
  refine encodes_write n fun p holds v bytes made => ?_
  cases made with
  | literal _ made => exact ⟨.ofLiteral l, orders p holds ▸ made, fun _ _ => rfl⟩
  | struct like => cases like

theorem encodes_bare (l : Literal) (n : Nat) : Encodes C (HasValue (.literal l none) src)
    (Layout.Written order refs (.literal l none)) n n [] := by
  refine encodes_nil n fun v bytes made => ?_
  cases made with
  | bare => rfl
  | struct like => cases like

/-- The integer of a name is written. -/
theorem encodes_toId (orders : ∀ p, C.holds p → p.order = order) {backing : Primitive} {type : String}
    {d : EnumDecl} (same : d.backing = backing) (distinct : (d.entries.map (·.1)).Nodup)
    (declared : ∀ p, C.holds p → Run.enumOf p.code type = pure d) (n : Nat) :
    Encodes C (HasValue (.enum backing d.entries) src)
      (Layout.Written order refs (.enum backing d.entries)) n n [.write backing (.toId type src)] := by
  subst same
  refine encodes_write n fun p holds v bytes made => ?_
  cases made with
  | @enum _ _ kind name id known member fits =>
    refine ⟨.int kind (BitVec.ofInt kind.bits id), ?_, fun m has => ?_⟩
    · rw [orders p holds]
      exact write_int order known _
    · have found : d.idOf? name = some id := by
        rw [EnumDecl.idOf?]
        exact congrArg (Option.map (·.2)) (find?_of_distinct distinct member)
      rw [Run.eval, Run.bind_apply, has rfl m (.refl _ _)]
      simp only [Except.bind, Run.idOfName, declared p holds, pure_bind, found, known,
        Option.getD_some]
      rfl
  | struct like => cases like

/-- A codec is called, which writes what is known of it. -/
theorem encodes_call {codec name : String} {inner : Shape}
    (calls : ∀ p, C.holds p → ∀ v bytes, Layout.Written order refs inner v bytes →
      ∀ m latest, m.stream = .output latest → ∃ m', p.calls.encode codec v m = .ok ((), m') ∧
        m'.stream = .output (bytes.reverse ++ latest)) (n : Nat) :
    Encodes C (HasValue (.exported name inner) src)
      (Layout.Written order refs (.exported name inner)) n n [.writeCodec codec src] where
  confined := confined_single (Nat.le_refl n) (fun _ member => nomatch member) rfl
  run p holds v bytes made m latest has stream := by
    cases made with
    | exported inside =>
      obtain ⟨m', ran, stream'⟩ := calls p holds v bytes inside m latest stream
      refine ⟨m', ?_, stream'⟩
      rw [Run.execBlock_single, Run.exec, Run.bind_apply, has rfl m (.refl _ _)]
      exact ran
    | struct like => cases like

/-! ### Members -/

theorem encodes_noFields (n : Nat) : Encodes C (HasMembers src)
    (Layout.WrittenMembers order refs (.struct [])) n n [] :=
  encodes_nil n fun _ _ made => by
    cases made
    rfl

/-- A field is written before the others. -/
theorem Encodes.field {f : Field} {fields : List Field}
    (first : Encodes C (HasValue f.shape (.field src f.name)) (Layout.Written order refs f.shape)
      low mid front)
    (others : Encodes C (HasMembers src) (Layout.WrittenMembers order refs (.struct fields)) mid high
      back) :
    Encodes C (HasMembers src) (Layout.WrittenMembers order refs (.struct (f :: fields))) low high
      (front ++ back) := by
  refine first.append others fun members bytes made => ?_
  cases made with
  | @cons _ _ v members _ _ written written' =>
    refine ⟨v, members, _, _, rfl, written, written', fun p env has => ⟨fun stored => ?_, ?_⟩⟩
    · exact has (f.name, v) (by rw [if_pos stored]; exact List.mem_cons_self)
    · refine fun env' agrees => HasMembers.later (fun member inside => has member ?_) agrees
        first.confined.le
      split
      · exact List.mem_cons_of_mem _ inside
      · exact inside

theorem encodes_noParts (n : Nat) : Encodes C (HasMembers src)
    (Layout.WrittenMembers order refs (.merged [])) n n [] :=
  encodes_nil n fun _ _ made => by
    cases made
    rfl

/-- The members of a part are written before those of the others. -/
theorem Encodes.part {parts : List Shape}
    (first : Encodes C (HasMembers src) (Layout.WrittenMembers order refs s) low mid front)
    (others : Encodes C (HasMembers src) (Layout.WrittenMembers order refs (.merged parts)) mid high
      back) :
    Encodes C (HasMembers src) (Layout.WrittenMembers order refs (.merged (s :: parts))) low high
      (front ++ back) := by
  refine first.append others fun members bytes made => ?_
  cases made with
  | @part _ _ members others _ _ written written' =>
    refine ⟨members, others, _, _, rfl, written, written', fun p env has => ⟨?_, ?_⟩⟩
    · exact fun member inside => has member (List.mem_append_left _ inside)
    · exact fun env' agrees => HasMembers.later
        (fun member inside => has member (List.mem_append_right _ inside)) agrees first.confined.le

/-- A struct is written as its members. -/
theorem Encodes.struct (like : s.isStructLike = true)
    (members : Encodes C (HasMembers src) (Layout.WrittenMembers order refs s) low high stmts) :
    Encodes C (HasValue s src) (Layout.Written order refs s) low high stmts := by
  refine members.recast fun v bytes made => ?_
  have stored : s.isStored = true := by
    cases s with
    | literal => cases like
    | _ => rfl
  cases made with
  | @struct _ members _ _ distinct inner =>
    exact ⟨members, inner, fun p env has => hasMembers_ofFields distinct (has stored)⟩
  | _ => cases like

/-! ### Bit groups -/

section

variable {backing : Primitive} {kind : IntKind} {widths : List Nat} {masks : List (String × Int)}
  {fields : List Field} {group : Nat} {terms : List Expr}

/-- Packed fields are put together in one integer. -/
theorem encodes_packed (orders : ∀ p, C.holds p → p.order = order)
    (known : backing.intKind? = some kind) (narrow : kind ≠ .u128) (inside : total widths ≤ kind.bits)
    (positive : 0 ∉ widths) (each : ∀ f ∈ fields, Shape.IsPackedField backing widths group f)
    {owner : String} (made : fields.mapM (packedTerm owner kind src) = .ok terms) (n : Nat) :
    Encodes C (HasMembers src) (Layout.WrittenMembers order refs (.packed backing widths fields group))
      n n [.write backing (orTerms kind terms)] := by
  refine encodes_write n fun p holds members bytes written => ?_
  cases written with
  | @packed _ _ _ _ kind' v known' fits =>
    cases known.symm.trans known'
    refine ⟨.int kind (packedWord kind v fields), ?_, fun m has => ?_⟩
    · rw [orders p holds]
      exact write_int order known _
    · refine Expr.denotes_orTerms (forall₂_of_mapM made fun f member e term => ?_) m (.refl n _)
      obtain ⟨index, width, here, shape⟩ := each f member
      have more : 0 < width := by
        rcases Nat.eq_zero_or_pos width with rfl | more
        · exact absurd (List.mem_of_getElem? here) positive
        · exact more
      have value := has (f.name, .int kind (v f.shape.slotIndex))
        (List.mem_map_of_mem (f := fun f => (f.name, Value.int kind (v f.shape.slotIndex))) member)
      rw [shape] at value
      have placed := denotes_packedTerm shape narrow more
        (Nat.le_trans (Shape.offset_inside here) inside) value term
      rwa [fieldBits, shape]

/-- Flags are put together in one integer. -/
theorem encodes_flags (orders : ∀ p, C.holds p → p.order = order)
    (known : backing.intKind? = some kind)
    (each : ∀ f ∈ fields, Shape.IsFlagField backing masks group f) (n : Nat) :
    Encodes C (HasMembers src) (Layout.WrittenMembers order refs (.flags backing masks fields group))
      n n [.write backing (orTerms kind (fields.filterMap (flagTerm kind group src)))] := by
  refine encodes_write n fun p holds members bytes written => ?_
  cases written with
  | @flags _ _ _ _ kind' on known' =>
    cases known.symm.trans known'
    refine ⟨.int kind (flagWord kind group (fun f => .bool (on f)) fields), ?_, fun m has => ?_⟩
    · rw [orders p holds]
      exact write_int order known _
    · refine Expr.denotes_orTerms ?_ m (.refl n _)
      refine List.rel_filterMap (R := fun f g => f = g ∧ f ∈ fields) ?_
        (List.forall₂_same.mpr fun f member => ⟨rfl, member⟩)
      rintro f _ ⟨rfl, member⟩
      obtain ⟨index, mask, _, shape⟩ := each f member
      have value := has (f.name, .bool (on f))
        (List.mem_map_of_mem (f := fun f => (f.name, Value.bool (on f))) member)
      have bits : flagBits? kind group (fun f => .bool (on f)) f =
          some (if on f then kind.maskBits mask else 0) := by
        simp [flagBits?, shape, Shape.flagRole, Shape.FlagRole.use?, Shape.FlagRole.isSet,
          Value.asBool?]
      have term : flagTerm kind group src f =
          some (.cond (.field src f.name) (.int mask kind) (.int 0 kind)) := by
        simp [flagTerm, shape, Shape.slotOf?]
      rw [bits, term]
      exact .some (Expr.denotes_bool_cond mask value)

end

/-! ### Unions -/

/-- The tag of a value is one that its shape can have. -/
theorem isTagOf_of_written {tag : Shape} {v : Value} {bytes : List UInt8}
    (written : Layout.Written order refs tag v bytes) : Decoding.IsTagOf tag v := by
  unfold Decoding.IsTagOf
  split
  · cases written with
    | @enum _ _ _ name id _ member _ => exact ⟨name, List.mem_map_of_mem member, rfl⟩
    | struct like => cases like
  · cases written with
    | prim holds => exact holds
    | struct like => cases like
  · cases written with
    | prim holds =>
      obtain ⟨text, rfl, _⟩ := holds
      exact ⟨text, rfl⟩
    | struct like => cases like
  · cases written with
    | prim holds =>
      rename_i p _ _ _
      cases p with
      | fixedBytes | bytes | string =>
        obtain ⟨_, rfl, _⟩ := holds
        rfl
      | bool | f32 | f64 | rest =>
        obtain ⟨_, rfl⟩ := holds
        rfl
      | _ =>
        obtain ⟨kind, known, bits, rfl⟩ := holds
        exact known.symm
    | struct like => cases like
  · trivial

section

variable (order refs) (tag : Shape) (tags : List (String × Literal))

/-- The bytes are those of a tag that selects the variant, and then those of the members. -/
def WrittenVariant (index : Nat) (key : String) (payload : Shape) (members : List (String × Value))
    (bytes : List UInt8) : Prop :=
  ∃ found front back, bytes = front ++ back ∧ Layout.Written order refs tag found front ∧
    Layout.selects found (tags.lookup key) index key = true ∧
    Layout.WrittenMembers order refs payload members back

/-- The arms of variants, from the `index`-th on: each writes what its variant is written as. The
payload is bound unless there are never any members. -/
inductive SendArms (C : Programs) (type : String) :
    Nat → Nat → Nat → List (String × Shape) → List (Pattern × List Stmt) → Prop where
  | nil (index n : Nat) : SendArms C type index n n [] []
  | cons {index low start mid high : Nat} {key : String} {payload : Shape} {binding : Option Local}
      {body : List Stmt} {rest : List (String × Shape)} {arms : List (Pattern × List Stmt)}
      (le : low ≤ start) (own : ∀ x ∈ binding, x.id = low ∧ low < start)
      (bare : binding = none → ∀ members bytes,
        Layout.WrittenMembers order refs payload members bytes → members = [])
      (encodes : Encodes C (HasMembers ((binding.map Expr.place).getD .absent))
        (WrittenVariant order refs tag tags index key payload) start mid body)
      (others : SendArms C type (index + 1) mid high rest arms) :
      SendArms C type index low high ((key, payload) :: rest)
        ((.variant type key binding, body) :: arms)

end

variable {tag : Shape} {tags : List (String × Literal)} {type tagField : String} {index : Nat}
  {variants : List (String × Shape)} {arms : List (Pattern × List Stmt)}
  {fallback : Option Failure}

/-- The arm of the variant writes it. -/
theorem SendArms.sends
    (made : SendArms order refs tag tags C type index low high variants arms)
    (distinct : (variants.map (·.1)).Nodup) {p : Program} (holds : C.holds p) {k : Nat} {key : String}
    {payload : Shape} (variant : variants[k]? = some (key, payload))
    {members : List (String × Value)} {bytes : List UInt8}
    (written : WrittenVariant order refs tag tags (index + k) key payload members bytes)
    (apart : (members.map (·.1)).Nodup) {m : Machine} {latest : List UInt8}
    (stream : m.stream = .output latest) :
    ∃ m', Run.execArms p (.variant key (if members.isEmpty then none else some (.ofFields members)))
      fallback arms m = .ok ((), m') ∧ m'.stream = .output (bytes.reverse ++ latest) := by
  induction made generalizing k with
  | nil => cases variant
  | @cons index low start mid high first payload' binding body rest arms le own bare encodes others ih =>
    rw [List.map_cons, List.nodup_cons] at distinct
    cases k with
    | zero =>
      cases variant
      cases binding with
      | none =>
        obtain ⟨_, _, back, _, _, _, inner⟩ := id written
        cases bare rfl members back inner
        simp only [Run.execArms, Run.matchBindings, if_true]
        exact encodes.run p holds [] bytes written m latest
          (fun member inside => absurd inside List.not_mem_nil) stream
      | some x =>
        obtain ⟨own, early⟩ := own x rfl
        simp only [Run.execArms, Run.matchBindings, if_true]
        refine encodes.run p holds members bytes written _ latest ?_ stream
        cases members with
        | nil => exact fun member inside => absurd inside List.not_mem_nil
        | cons first others =>
          exact hasMembers_ofFields apart
            (Expr.denotes_place ((Env.get?_set _ _ _ _).trans (if_pos rfl)) (by omega))
    | succ k =>
      have there : rest[k]? = some (key, payload) := variant
      have differ : first ≠ key := fun same => distinct.1
        (same ▸ List.mem_map_of_mem (f := (·.1)) (List.mem_of_getElem? there))
      simp only [Run.execArms, Run.matchBindings, if_neg differ.symm]
      exact ih distinct.2 there (by rwa [Nat.add_right_comm, Nat.add_assoc])

theorem SendArms.range (made : SendArms order refs tag tags C type index low high variants arms)
    (e : Expr) (fallback : Option Failure) : low ≤ high ∧
      (∀ y ∈ (Stmt.select e arms fallback).binds, low ≤ y ∧ y < high) ∧
      (Stmt.select e arms fallback).sets = [] := by
  induction made with
  | nil index n =>
    refine ⟨Nat.le_refl n, fun y member => ?_, ?_⟩
    · simp [Stmt.binds, Stmt.binders, Stmt.blocks] at member
    · simp [Stmt.sets, Stmt.target?, Stmt.blocks]
  | @cons index low start mid high key payload binding body rest arms le own bare encodes others ih =>
    obtain ⟨le', binds, sets⟩ := ih
    have le'' := encodes.confined.le
    refine ⟨by omega, fun y member => ?_, ?_⟩
    · have either : (∃ x ∈ binding, y = x.id) ∨ y ∈ Stmt.bound body ∨
          y ∈ (Stmt.select e arms fallback).binds := by
        simp only [Stmt.binds, Stmt.binders, Stmt.blocks, List.flatMap_cons, List.map_cons,
          List.mem_append] at member ⊢
        rcases member with (bound | arms) | body | blocks
        · cases binding with
          | none => cases bound
          | some x => exact .inl ⟨x, rfl, List.mem_singleton.mp bound⟩
        · exact .inr (.inr (.inl arms))
        · exact .inr (.inl body)
        · exact .inr (.inr (.inr blocks))
      rcases either with ⟨x, bound, rfl⟩ | inner | later
      · have := own x bound
        omega
      · have := encodes.confined.bound y inner
        omega
      · have := binds y later
        omega
    · rw [Stmt.sets_select] at sets ⊢
      rw [Stmt.assignedArms_cons, encodes.confined.assigned]
      exact sets

/-- A union is written by the arm of its variant. -/
theorem SendArms.encodes (made : SendArms order refs tag tags C type 0 low high variants arms)
    (distinct : (variants.map (·.1)).Nodup) :
    Encodes C (HasValue (.union tagField tag variants tags) src)
      (Layout.Written order refs (.union tagField tag variants tags)) low high
      [.select src arms fallback] where
  confined := by
    obtain ⟨le, binds, sets⟩ := made.range src fallback
    exact confined_single le binds sets
  run p holds v bytes written m latest has stream := by
    cases written with
    | @union _ _ _ _ index key payload found members front back variant tagged selected apart inner =>
      have is : WrittenVariant order refs tag tags (0 + index) key payload members (front ++ back) :=
        ⟨found, front, back, rfl, tagged, by rwa [Nat.zero_add], inner⟩
      rw [Run.execBlock_single, Run.exec, Run.bind_apply, has rfl m (.refl _ _)]
      exact made.sends distinct holds variant is apart stream
    | struct like => cases like

end Encoding

end WireSchema
