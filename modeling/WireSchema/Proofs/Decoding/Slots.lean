import WireSchema.Proofs.Decoding.Pieces
import WireSchema.Proofs.Lowering.Flags
import WireSchema.Proofs.Lowering.Packing

/-!
# Fragments for bit groups

The integer of a packed or flag struct is read once and bound; then every slot is calculated from it
and bound, in the order of the fields. The slots get the values that the layout gives them.
-/

namespace WireSchema

open Ir Wire Lowering

/-- The type of the integer that a slot belongs to. -/
def SlotKind.backing : SlotKind → Primitive
  | .bits _ _ backing | .flag _ backing => backing

/-- The slot has a place in an integer of the given backing. -/
def SlotKind.Fits (backing : Primitive) : SlotKind → Prop
  | .bits shift width own => own = backing ∧ backing ≠ .u128 ∧ 0 < width ∧
    ∀ kind, backing.intKind? = some kind → shift + width ≤ kind.bits
  | .flag mask own => own = backing ∧
    ∀ kind, backing.intKind? = some kind → 0 < mask ∧ mask ≤ IntKind.mask kind.bits

theorem SlotKind.Fits.backing_eq {backing : Primitive} {slot : SlotKind} (fits : slot.Fits backing) :
    slot.backing = backing := by
  cases slot with
  | bits | flag => exact fits.1

namespace Decoding

variable {C : Programs} {low mid high : Nat} {front stmts : List Stmt} {raw : Local} {e : Expr}
  {order : ByteOrder} {backing : Primitive} {slot : SlotKind} {fields : List Field}
  {bindings : List (String × Local)} {Γ : Sorts}

/-! ### Expressions of slots -/

theorem backing_of_slotExpr (made : slotExpr (.var raw) slot = .ok e) :
    ∃ kind, slot.backing.intKind? = some kind := by
  cases slot with
  | bits _ _ own | flag _ own =>
    cases known : own.intKind? with
    | some kind => exact ⟨kind, known⟩
    | none =>
      have refused : Shape.backingKind own = .error (.invalidBacking own.schemaName) := by
        rw [Shape.backingKind, known]
      simp only [slotExpr, refused] at made
      cases made

/-- A calculation with an integer constant. -/
theorem wellSorted_binary {op : BinOp} {a : Expr} {n : Int} {count : IntKind}
    (sorted : a.WellSorted Γ) (known : a.isInt Γ = true) :
    (Expr.binary op a (.int n count)).WellSorted Γ := by
  intro node inside
  rcases List.mem_cons.mp inside with rfl | inner
  · exact .inr (.inr ⟨known, rfl⟩)
  · rcases List.mem_append.mp inner with left | right
    · exact sorted node left
    · cases List.mem_singleton.mp right
      trivial

/-- A slot is calculated from the integer alone. -/
theorem wellSorted_slotExpr (seen : raw.id ∈ Γ.seen) (int : raw.id ∈ Γ.ints)
    (made : slotExpr (.var raw) slot = .ok e) : e.WellSorted Γ := by
  have whole : (Expr.var raw).WellSorted Γ := by
    simpa [Expr.WellSorted, Expr.nodes, Expr.Safe] using seen
  have here : (Expr.var raw).isInt Γ = true := by simpa [Expr.isInt] using int
  obtain ⟨kind, known⟩ := backing_of_slotExpr made
  cases slot with
  | bits shift width own =>
    have known : own.intKind? = some kind := known
    have start : (if shift = 0 then Expr.var raw
        else .binary .shr (.var raw) (.int shift .u32)).WellSorted Γ ∧
        (if shift = 0 then Expr.var raw
          else .binary .shr (.var raw) (.int shift .u32)).isInt Γ = true := by
      by_cases unmoved : shift = 0
      · simp only [if_pos unmoved]
        exact ⟨whole, here⟩
      · simp only [if_neg unmoved]
        exact ⟨wellSorted_binary whole here, rfl⟩
    simp only [slotExpr, backingKind_of_known known] at made
    change (if kind.signed = true then _ else _) = Except.ok e at made
    obtain ⟨sorted, moved⟩ := start
    split at made
    · split at made
      · cases made
        exact sorted
      · cases made
        exact wellSorted_binary (wellSorted_binary sorted moved) rfl
    · split at made
      · cases made
        exact sorted
      · cases made
        exact wellSorted_binary sorted moved
  | flag mask own =>
    have known : own.intKind? = some kind := known
    simp only [slotExpr, backingKind_of_known known] at made
    cases made
    exact wellSorted_binary (wellSorted_binary whole here) rfl

/-- A slot has the value that the layout gives it. -/
theorem eval_slotExpr {p : Program} {m : Machine} {v : Value} (typed : v.intKind? = backing.intKind?)
    (fits : slot.Fits backing) (known : m.env.get? raw.id = some v)
    (made : slotExpr (.var raw) slot = .ok e) :
    Probe.eval p e m = .ok (Layout.slotValue v slot, m) := by
  obtain ⟨kind, isKind⟩ := backing_of_slotExpr made
  rw [fits.backing_eq] at isKind
  rw [isKind] at typed
  match v with
  | .int own bits =>
    cases typed
    have denotes : (Expr.var raw).Denotes p (raw.id + 1) m.env (.int kind bits) :=
      Expr.denotes_var known (Nat.lt_succ_self _)
    have run : Run.eval p e m = .ok (Layout.slotValue (.int kind bits) slot, m) := by
      cases slot with
      | bits shift width own =>
        obtain ⟨rfl, narrow, positive, inside⟩ := fits
        have narrow : kind ≠ .u128 := by
          rintro rfl
          cases own <;> first | exact narrow rfl | cases isKind
        exact denotes_bitSlot isKind narrow positive (inside kind isKind) denotes made m (.refl _ _)
      | flag mask own =>
        obtain ⟨rfl, room⟩ := fits
        obtain ⟨positive, low⟩ := room kind isKind
        have value : (bits &&& kind.maskBits mask != 0) = (bits.toNat &&& mask.toNat != 0) := by
          rw [Bool.eq_iff_iff, bne_iff_ne, bne_iff_ne, ← IntKind.toNat_maskBits positive low,
            ← BitVec.toNat_and, Ne, Ne, ← BitVec.toNat_inj]
          rfl
        have flag := denotes_flagSlot isKind denotes made m (.refl _ _)
        rw [value] at flag
        exact flag
    exact Probe.ok_of_unmarked (by rwa [Probe.unmarked_eval])

/-! ### Bit groups -/

/-- The bindings of slots, calculated one after another. -/
inductive Slots (backing : Primitive) (raw : Local) :
    Nat → Nat → List Field → List Stmt → List (String × Local) → Prop where
  | nil (n : Nat) : Slots backing raw n n [] [] []
  | cons {low high : Nat} {f : Field} {group index : Nat} {slot : SlotKind} {x : Local} {e : Expr}
      {rest : List Field} {stmts : List Stmt} {bindings : List (String × Local)}
      (shape : f.shape = .slot group index slot) (fits : slot.Fits backing)
      (made : slotExpr (.var raw) slot = .ok e) (own : x.id = low)
      (others : Slots backing raw (low + 1) high rest stmts bindings) :
      Slots backing raw low high (f :: rest) (.bind x false (some e) :: stmts)
        ((f.name, x) :: bindings)

theorem Slots.closed (slots : Slots backing raw mid high fields stmts bindings)
    (closed : Closed low mid front) (seen : raw.id ∈ (Stmt.sortsAfter {} front).seen)
    (int : raw.id ∈ (Stmt.sortsAfter {} front).ints) : Closed low high (front ++ stmts) := by
  induction slots generalizing front with
  | nil n => rwa [List.append_nil]
  | @cons _ _ f _ _ slot x e rest stmts bindings _ _ made own _ ih =>
    have first := closed.declare own (wellSorted_slotExpr seen int made)
    have within := Stmt.within_sortsAfter (Stmt.sortsAfter {} front) [.bind x false (some e)]
    rw [← Stmt.sortsAfter_append] at within
    have whole := ih first (within.seen _ seen) (within.ints _ int)
    rwa [List.append_assoc] at whole

theorem Slots.range (slots : Slots backing raw low high fields stmts bindings) :
    low ≤ high ∧ (∀ y ∈ Stmt.bound stmts, low ≤ y) ∧ Stmt.assigned stmts = [] := by
  induction slots with
  | nil n => exact ⟨Nat.le_refl n, nofun, rfl⟩
  | @cons _ _ _ _ _ _ x _ _ _ _ _ _ _ own _ ih =>
    obtain ⟨le, bound, assigned⟩ := ih
    refine ⟨by omega, fun y member => ?_, ?_⟩
    · rw [Stmt.bound_cons, List.mem_append] at member
      rcases member with here | later
      · have : y = x.id := by simpa [Stmt.binds, Stmt.binders, Stmt.blocks] using here
        omega
      · have := bound y later
        omega
    · rw [Stmt.assigned_cons, assigned]
      rfl

/-- The slots get the values that the layout gives them. -/
theorem Slots.run (slots : Slots backing raw low high fields stmts bindings) (early : raw.id < low)
    {p : Program} (isolated : p.Isolated) {v : Value} (typed : v.intKind? = backing.intKind?)
    {m : Machine} (known : m.env.get? raw.id = some v) :
    ∃ m', Probe.execBlock p stmts m = .ok ((), m') ∧ m'.stream = m.stream ∧
      Holds m'.env bindings (Layout.slotMembers v fields) := by
  induction slots generalizing m with
  | nil n => exact ⟨m, rfl, rfl, rfl⟩
  | @cons low _ f _ _ slot x e rest stmts bindings shape fits made own others ih =>
    have start : Probe.exec p (.bind x false (some e)) m =
        .ok ((), Probe.setting m x (Layout.slotValue v slot)) := by
      rw [Probe.exec, Probe.bind_apply, eval_slotExpr typed fits known made]
      rfl
    have still : (Probe.setting m x (Layout.slotValue v slot)).env.get? raw.id = some v := by
      rw [Env.get?_set, if_neg (by omega), known]
    obtain ⟨m', ran, stream, held⟩ := ih (by omega) still
    refine ⟨m', ?_, stream, ?_⟩
    · rw [Probe.execBlock_cons, start]
      exact ran
    · -- The later slots leave this one alone.
      obtain ⟨_, bound, assigned⟩ := others.range
      have unbound : x.id ∉ Stmt.bound stmts := fun member => by
        have := bound _ member
        omega
      have unset : x.id ∉ Stmt.assigned stmts := by
        rw [assigned]
        exact List.not_mem_nil
      have kept := Probe.cell?_execBlock isolated unbound unset ran
      have here : m'.env.get? x.id = some (Layout.slotValue v slot) := by
        rw [Env.get?, kept, ← Env.get?, Env.get?_set, if_pos rfl]
      simp only [Holds, Layout.slotMembers, List.filterMap_cons, shape, List.map_cons, here]
      exact congrArg _ held

theorem Slots.mem_stmts (slots : Slots backing raw low high fields stmts bindings) :
    ∀ b ∈ bindings, ∃ e, Stmt.bind b.2 false (some e) ∈ stmts := by
  induction slots with
  | nil => exact nofun
  | cons _ _ _ _ _ ih =>
    refine List.forall_mem_cons.mpr ⟨⟨_, List.mem_cons_self ..⟩, fun b later => ?_⟩
    obtain ⟨e, member⟩ := ih b later
    exact ⟨e, List.mem_cons_of_mem _ member⟩

/-- The integer of a group is read once, and its slots are calculated from it. -/
theorem Slots.bindsAll (orders : ∀ p, C.holds p → p.order = order) (own : raw.id = low)
    (slots : Slots backing raw (low + 1) high fields stmts bindings) :
    BindsAll C (Layout.groupMembers order backing fields) low high
      (.bind raw false (some (.read backing)) :: stmts) bindings where
  closed := by
    have first : Closed low (low + 1) [.bind raw false (some (.read backing))] := closed_read own
    cases slots with
    | nil => exact first
    | cons shape fits made own others =>
      -- There is a slot, so the backing holds integers.
      obtain ⟨kind, known⟩ := backing_of_slotExpr made
      have int : backing.isInteger = true := by
        rw [fits.backing_eq] at known
        rw [Primitive.isInteger, known, Option.isSome_some]
      refine Slots.closed (.cons shape fits made own others) first ?_ ?_
      · simp [Stmt.sortsAfter, Stmt.sorts, Stmt.opens]
      · simp [Stmt.sortsAfter, Stmt.sorts, Stmt.opensInts, Stmt.initialised?, Expr.isInt, int]
  opened b member := by
    obtain ⟨e, inside⟩ := slots.mem_stmts b member
    exact ⟨false, some e, List.mem_cons_of_mem _ inside⟩
  run p holds m reader stream := by
    refine (mirrors_bindRead orders holds stream raw backing).bind
      fun _ v m₁ reader₁ _ ran stream₁ known => ?_
    obtain ⟨m₂, ran₂, stream₂, held⟩ := slots.run (by omega) (C.isolated p holds)
      (yields_kind order backing _ _ _ ran) known
    exact ⟨(), m₂, ran₂, stream₂.trans stream₁, held⟩

end Decoding

end WireSchema
