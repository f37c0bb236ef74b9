import WireSchema.Proofs.Lowering.Construction

/-!
# Fields that encoders project

An encoder of a struct takes fields out of its source in one place only, where the members of the
struct are gone through. What is written for a member has the projected field as its source, or a new
binding, so the source itself does not come out again.
-/

namespace WireSchema

open Ir

variable {source e e' : Expr}

/-- What there is for every entry of a list can be put into a list. -/
theorem exists_paired {α β : Type} {R : α → β → Prop} {as : List α}
    (each : ∀ a ∈ as, ∃ b, R a b) : ∃ bs, List.Forall₂ R as bs := by
  induction as with
  | nil => exact ⟨[], .nil⟩
  | cons a rest ih =>
    obtain ⟨⟨b, first⟩, others⟩ := List.forall_mem_cons.mp each
    obtain ⟨bs, others⟩ := ih others
    exact ⟨b :: bs, .cons first others⟩

namespace Ir.Expr

theorem Clear.ne (clear : source.Clear e) : e ≠ source := by
  rintro rfl
  rcases clear with other | longer
  · exact other rfl
  · exact Nat.lt_irrefl _ longer

/-- More is put around the expression. -/
theorem Clear.around (clear : source.Clear e) (locals : e'.locals = e.locals)
    (longer : e.nodes.length ≤ e'.nodes.length) : source.Clear e' := by
  rcases clear with other | before
  · exact .inl (locals ▸ other)
  · exact .inr (before.trans_le longer)

end Ir.Expr

namespace Shape

variable {types : Refs} {t : Shape}

theorem resolves_inner {name : String} {u : Shape}
    (resolves : Resolves types (.alias name t) u) : Resolves types t u := by
  cases resolves with
  | direct direct => exact direct.elim
  | «alias» resolves => exact resolves

theorem resolves_label {label : String} (known : types.lookup label = some t) {u : Shape}
    (resolves : Resolves types (.ref label) u) : Resolves types t u := by
  cases resolves with
  | direct direct => exact direct.elim
  | ref found resolves =>
    cases found.symm.trans known
    exact resolves

end Shape

namespace Lowering

open Gen Session

variable {types : Refs} {rank : String → Nat} {σ τ : Session} {em : Emitter}
variable {names : String → Prop} {s : Shape}

/-! ### Sources -/

theorem Issued.mono (issued : Issued source σ) (next : σ.draft.nextLocal ≤ τ.draft.nextLocal) :
    Issued source τ :=
  fun i member => (issued i member).trans_le next

/-- The source has no new binding in it. -/
theorem Issued.clear (issued : Issued source σ) {x : Local} (fresh : σ.draft.nextLocal ≤ x.id) :
    source.Clear (.place x) := by
  refine .inl fun same => ?_
  have among : x.id ∈ source.locals := same ▸ List.mem_cons_self
  exact absurd (issued x.id among) (Nat.not_lt.mpr fresh)

variable (source names) in
/-- The fields of the source that are taken out in the expression have one of the names. -/
abbrev Projects (e : Expr) : Prop := ∀ r, (Watch.members source names).Each r e

theorem projects_iff (own : ∀ name, e = .field source name → names name) :
    Projects source names e ↔ ∀ part ∈ e.children, Projects source names part := by
  constructor
  · exact fun each part member r => (each r).child member
  · exact fun parts r => Expr.each_iff.mpr ⟨own, fun part member => parts part member r⟩

theorem projects_leaf (leaf : e.children = []) : Projects source names e := by
  refine (projects_iff ?_).mpr (leaf ▸ nofun)
  rintro name rfl
  cases leaf

theorem projects_place {x : Local} : Projects source names (.place x) :=
  (projects_iff nofun).mpr (List.forall_mem_singleton.mpr (projects_leaf rfl))

theorem projects_field (clear : source.Clear e) (each : Projects source names e) {name : String} :
    Projects source names (.field e name) := by
  refine (projects_iff ?_).mpr (List.forall_mem_singleton.mpr each)
  rintro other ⟨⟩
  exact absurd rfl clear.ne

theorem clear_field (clear : source.Clear e) {name : String} : source.Clear (.field e name) :=
  clear.around rfl (Nat.le_succ _)

theorem clear_isPresent (clear : source.Clear e) : source.Clear (.isPresent e) :=
  clear.around rfl (Nat.le_succ _)

/-- A shape that is neither a reference nor one of the shapes of tags is none. -/
theorem not_isTag (direct : s.IsDirect) (prim : ∀ p, s ≠ .prim p)
    (enum : ∀ backing entries, s ≠ .enum backing entries) : ¬IsTag types s := by
  rintro ⟨t, resolves, form⟩
  cases resolves with
  | direct _ =>
    rcases form with ⟨p, rfl⟩ | ⟨backing, entries, rfl⟩
    · exact prim p rfl
    · exact enum backing entries rfl
  | _ => exact direct

/-- Every stored field of a struct may be taken out of its source. -/
theorem Admits.takes (admits : Admits types source names s e) (struct : s.isStructLike = true)
    {f : Field} (stores : Shape.Stores types s f) : Takes source names e f.name := by
  rcases admits.clear with clear | tag | ⟨rfl, _, among⟩
  · exact ⟨projects_field clear admits.each, clear_field clear⟩
  · refine absurd tag (not_isTag ?_ ?_ ?_) <;> cases s <;> simp_all [Shape.isStructLike, Shape.IsDirect]
  · refine ⟨(projects_iff ?_).mpr (List.forall_mem_singleton.mpr admits.each), ?_⟩
    · rintro _ ⟨⟩
      exact among f stores
    · exact .inr (Nat.lt_succ_self _)

/-- A source of other values than structs and tags is not the one that is watched. -/
theorem Admits.isClear (admits : Admits types source names s e) (untagged : ¬IsTag types s)
    (other : s.isStructLike = false) : source.Clear e := by
  rcases admits.clear with clear | tag | ⟨_, struct, _⟩
  · exact clear
  · exact absurd tag untagged
  · exact absurd (other.symm.trans struct) Bool.false_ne_true

/-- What stands for another shape has the sources of that shape. -/
theorem Admits.behind (admits : Admits types source names s e) {t : Shape}
    (same : ∀ u, Shape.Resolves types s u → Shape.Resolves types t u)
    (other : s.isStructLike = false) : Admits types source names t e := by
  refine ⟨admits.each, ?_⟩
  rcases admits.clear with clear | ⟨u, resolves, form⟩ | ⟨_, struct, _⟩
  · exact .inl clear
  · exact .inr (.inl ⟨u, same u resolves, form⟩)
  · exact absurd (other.symm.trans struct) Bool.false_ne_true

theorem admits_place (issued : Issued source σ) {x : Local} (fresh : σ.draft.nextLocal ≤ x.id) :
    Admits types source names s (.place x) :=
  ⟨projects_place, .inl (issued.clear fresh)⟩

theorem admits_tag (tag : IsTag types s) (value : Tag) :
    Admits types source names s value.expr := by
  refine ⟨?_, .inr (.inl tag)⟩
  cases value <;> exact projects_leaf rfl

theorem Takes.admits {name : String} (takes : Takes source names e name) :
    Admits types source names s (.field e name) :=
  ⟨takes.each, .inl takes.clear⟩

theorem Emitter.Tracked.writes (tracked : em.Tracked types rank) (written : s.IsWritten types rank)
    (admits : s.isStored = true → Admits types source names s e) (issued : Issued source σ) :
    Leads types rank (.members source names) σ (em.encode s e) fun _ _ => True :=
  (tracked.encode source names s e σ written admits issued).weaken fun _ _ _ => trivial

/-! ### Fields -/

theorem leads_write {p : Primitive} (each : Projects source names e) :
    Leads types rank (.members source names) σ (Gen.emit (.write p e)) fun _ _ => True :=
  leads_emit (List.forall_mem_singleton.mpr (each _)) nofun

theorem leads_writeLength {length : Primitive} (each : Projects source names e) :
    Leads types rank (.members source names) σ (writeLength length e) fun _ _ => True := by
  refine leads_ofExcept.bind fun kind _ _ _ => leads_write ?_
  refine (projects_iff nofun).mpr (List.forall_mem_singleton.mpr ?_)
  exact (projects_iff nofun).mpr (List.forall_mem_singleton.mpr each)

theorem projects_binary {op : BinOp} {a b : Expr} (left : Projects source names a)
    (right : Projects source names b) : Projects source names (.binary op a b) :=
  (projects_iff nofun).mpr (List.forall_mem_cons.mpr ⟨left, List.forall_mem_singleton.mpr right⟩)

theorem projects_int {v : Int} {kind : IntKind} : Projects source names (.int v kind) :=
  projects_leaf rfl

theorem projects_orTerms {kind : IntKind} {terms : List Expr}
    (each : ∀ term ∈ terms, Projects source names term) :
    Projects source names (orTerms kind terms) := by
  cases terms with
  | nil => exact projects_int
  | cons first rest =>
    rw [orTerms]
    induction rest generalizing first with
    | nil => exact each first List.mem_cons_self
    | cons second rest ih =>
      obtain ⟨ofFirst, others⟩ := List.forall_mem_cons.mp each
      obtain ⟨ofSecond, others⟩ := List.forall_mem_cons.mp others
      exact ih _ (List.forall_mem_cons.mpr ⟨projects_binary ofFirst ofSecond, others⟩)

theorem projects_packedTerm {owner : String} {kind : IntKind} {term : Expr} {f : Field}
    (found : packedTerm owner kind e f = .ok term)
    (takes : f.shape.isStored = true → Takes source names e f.name) :
    Projects source names term := by
  unfold packedTerm at found
  split at found
  case h_1 shift width backing same =>
    cases found
    have taken := (takes (by rw [same]; rfl)).each
    have masked : Projects source names (if width = kind.bits then .field e f.name
        else .binary .bitAnd (.field e f.name) (.int (IntKind.mask width) kind)) := by
      split
      · exact taken
      · exact projects_binary taken projects_int
    split
    · exact masked
    · exact projects_binary masked projects_int
  case h_2 => cases found

theorem projects_packedTerms {owner : String} {kind : IntKind} {fields : List Field}
    {terms : List Expr} (found : fields.mapM (packedTerm owner kind e) = .ok terms)
    (takes : ∀ f ∈ fields, f.shape.isStored = true → Takes source names e f.name) :
    ∀ term ∈ terms, Projects source names term := by
  induction fields generalizing terms with
  | nil =>
    cases found
    exact nofun
  | cons f rest ih =>
    obtain ⟨own, later⟩ := List.forall_mem_cons.mp takes
    simp only [List.mapM_cons, bind, Except.bind] at found
    split at found
    case h_1 => cases found
    case h_2 term first =>
      split at found
      case h_1 => cases found
      case h_2 terms others =>
        cases found
        exact List.forall_mem_cons.mpr ⟨projects_packedTerm first own, ih others later⟩

theorem projects_flagTerm {kind : IntKind} {group : Nat} {term : Expr} {f : Field}
    (found : flagTerm kind group e f = some term)
    (takes : f.shape.isStored = true → Takes source names e f.name) :
    Projects source names term := by
  have cond {set : Expr} (mask : Int) (each : Projects source names set) :
      Projects source names (.cond set (.int mask kind) (.int 0 kind)) :=
    (projects_iff nofun).mpr (List.forall_mem_cons.mpr ⟨each, List.forall_mem_cons.mpr
      ⟨projects_int, List.forall_mem_singleton.mpr projects_int⟩⟩)
  unfold flagTerm at found
  dsimp only at found
  split at found
  case h_1 same =>
    have taken := (takes (by rw [same]; rfl)).each
    obtain ⟨slot, _, found⟩ := Option.bind_eq_some_iff.mp found
    split at found
    · cases found
      exact cond _ ((projects_iff nofun).mpr (List.forall_mem_singleton.mpr taken))
    · cases found
  case h_2 =>
    obtain ⟨slot, here, found⟩ := Option.bind_eq_some_iff.mp found
    have stored : f.shape.isStored = true := by
      unfold Shape.slotOf? at here
      split at here
      case h_1 same => rw [same]; rfl
      case h_2 => cases here
    split at found
    · cases found
      exact cond _ (takes stored).each
    · cases found

theorem leads_encodeInOrder (tracked : em.Tracked types rank) {fields : List Field}
    (written : ∀ f ∈ fields, f.shape.IsWritten types rank)
    (takes : ∀ f ∈ fields, f.shape.isStored = true → Takes source names e f.name)
    (issued : Issued source σ) :
    Leads types rank (.members source names) σ (encodeInOrder em e fields) fun _ _ => True := by
  refine (leads_forM (Q := fun _ => True) fun f member τ step => ?_).weaken fun _ _ _ => trivial
  exact Leads.withHint (tracked.writes (written f member)
    (fun stored => (takes f member stored).admits) (issued.mono step.next))

variable (types) in
/-- The shape is a struct, or stands for one: there are fields that it stores. -/
def HasStored (s : Shape) : Prop := ∃ fields, s.storedFields types = .ok fields

theorem leads_encodeFields (whole : types.Written rank) (tracked : em.Tracked types rank)
    (written : s.IsWritten types rank)
    (takes : ∀ f, Shape.Stores types s f → Takes source names e f.name)
    (issued : Issued source σ) :
    Leads types rank (.members source names) σ (encodeFields em s e) fun _ _ =>
      HasStored types s := by
  have ranked := Source.ranked_of_ordered whole.ordered
  have resolves {part : Shape} (written : part.IsWritten types rank)
      (takes : ∀ f t, part.resolved types = .ok t → Shape.Stores types t f →
        Takes source names e f.name) {σ : Session} (issued : Issued source σ) :
      Leads types rank (.members source names) σ (do em.encodeFields (← Gen.resolved part) e)
        fun _ _ => HasStored types part := by
    refine leads_resolved.bind fun t τ step ran => ?_
    rw [HasStored, Shape.storedFields_resolved ranked ran]
    exact tracked.encodeFields source names t e τ (written.resolved whole ran)
      (fun f stores => takes f t ran stores) (issued.mono step.next)
  have stored {fields : List Field} {act : Gen Unit}
      (own : s.storedFields types = .ok (fields.filter (·.shape.isStored)))
      (leads : Leads types rank (.members source names) σ act fun _ _ => True) :
      Leads types rank (.members source names) σ act fun _ _ => HasStored types s :=
    leads.weaken fun _ _ _ => ⟨_, own⟩
  cases s with
  | struct fields =>
    refine stored (Shape.storedFields_eq ranked _) ?_
    exact leads_encodeInOrder tracked (written.member whole rfl)
      (fun f member stored => takes f (.struct member stored)) issued
  | packed backing widths fields group =>
    refine stored (Shape.storedFields_eq ranked _) ?_
    refine leads_ofExcept.bind fun kind _ _ _ => leads_canonicalName.bind fun owner _ _ _ => ?_
    refine leads_ofExcept.bind fun terms _ _ found => leads_write (projects_orTerms ?_)
    exact projects_packedTerms found fun f member stored => takes f (.packed member stored)
  | flags backing masks fields group =>
    have taken : ∀ f ∈ fields, f.shape.isStored = true → Takes source names e f.name :=
      fun f member stored => takes f (.flags member stored)
    refine stored (Shape.storedFields_eq ranked _) ?_
    refine leads_ofExcept.bind fun kind _ step _ => ?_
    -- First the flags in one integer, then the fields that they announce.
    refine Leads.bind (leads_write (projects_orTerms fun term member => ?_)) fun _ τ step' _ => ?_
    · obtain ⟨f, among, found⟩ := List.mem_filterMap.mp member
      exact projects_flagTerm found (taken f among)
    · refine Leads.withGroup nofun (leads_encodeInOrder tracked ?_ ?_ ?_)
      · exact fun f member => written.member whole rfl f (List.mem_filter.mp member).1
      · exact fun f member => taken f (List.mem_filter.mp member).1
      · exact issued.mono (step.next.trans step'.next)
  | merged parts =>
    refine (leads_forM (Q := HasStored types) fun part member τ step => ?_).weaken fun _ _ all => ?_
    · exact resolves (written.part whole member)
        (fun f t ran stores => takes f (.part member ran stores)) (issued.mono step.next)
    · obtain ⟨each, all⟩ := exists_paired all
      exact ⟨_, (Shape.storedFields_merged ranked).mpr ⟨each, all, rfl⟩⟩
  | «alias» | exported | ref =>
    exact resolves written (fun f t ran stores => takes f (.behind ran stores)) issued
  | _ => exact leads_canonicalName.bind fun _ _ _ _ => leads_throw

/-! ### Values -/

theorem leads_encodeOptional {value presence : Shape} (tracked : em.Tracked types rank)
    (ofValue : value.IsWritten types rank) (ofPresence : presence.IsWritten types rank)
    (each : Projects source names e) (clear : source.Clear e) (issued : Issued source σ) :
    Leads types rank (.members source names) σ (encodeOptional em value presence e)
      fun _ _ => True := by
  refine leads_refs.bind fun _ _ step _ => ?_
  split
  · exact leads_canonicalName.bind fun _ _ _ _ => leads_throw
  have issued := issued.mono step.next
  have tests : Admits types source names presence (.isPresent e) :=
    ⟨(projects_iff nofun).mpr (List.forall_mem_singleton.mpr each), .inl (clear_isPresent clear)⟩
  refine Leads.bind (tracked.writes ofPresence (fun _ => tests) issued) fun _ _ step _ => ?_
  have issued := issued.mono step.next
  refine leads_lastHint.bind fun _ _ step _ => leads_alloc.bind fun x _ step' fresh => ?_
  have place : Admits types source names value (.place x) :=
    admits_place (issued.mono step.next) fresh
  refine Leads.bind (Leads.capture (tracked.writes ofValue (fun _ => place)
    (issued.mono (step.next.trans step'.next)))) fun out _ _ holds => ?_
  dsimp only
  split
  · exact leads_emit (List.forall_mem_singleton.mpr (each _)) (List.forall_mem_singleton.mpr holds.1)
  · exact leads_pure trivial

/-- One arm of an encoded union: the tag is written, and the payload out of what was bound for it. -/
theorem leads_encodeArm (whole : types.Written rank) (tracked : em.Tracked types rank)
    {tag payload : Shape} (ofTag : tag.IsWritten types rank) (isTag : IsTag types tag) (value : Tag)
    (ofPayload : payload.IsWritten types rank) {tagField key : String}
    (takes : ∀ f, Shape.Stores types payload f → Takes source names e f.name)
    (issued : Issued source σ) :
    Leads types rank (.members source names) σ (Gen.capture do
      Gen.withHint tagField (em.encode tag value.expr)
      Gen.withHint key do em.encodeFields (← Gen.resolved payload) e)
      fun captured r => (Watch.members source names).All r captured.1 := by
  refine Leads.weaken (Leads.capture (Q := fun _ _ => True) ?_) fun _ _ holds => holds.1
  refine Leads.bind (Leads.withHint (tracked.writes ofTag (fun _ => admits_tag isTag value)
    issued)) fun _ τ step _ => Leads.withHint ?_
  refine leads_resolved.bind fun t _ step' ran => ?_
  have issued : Issued source τ := fun i member => (issued i member).trans_le step.next
  refine Leads.weaken (tracked.encodeFields source names t _ _ (ofPayload.resolved whole ran)
    (fun f stores => takes f (.behind ran stores)) ?_) fun _ _ _ => trivial
  exact fun i member => (issued i member).trans_le step'.next

theorem leads_encodeArms (whole : types.Written rank) (tracked : em.Tracked types rank)
    {type tagField : String} {tag : Shape} {tags : List (String × Literal)}
    (ofTag : tag.IsWritten types rank) {variants : List (String × Shape)}
    (payloads : ∀ v ∈ variants, v.2.IsWritten types rank) (index : Nat) (issued : Issued source σ) :
    Leads types rank (.members source names) σ (encodeArms em type tagField tag tags index variants)
      fun arms r => ∀ arm ∈ arms, (Watch.members source names).All r arm.2 := by
  have ranked := Source.ranked_of_ordered whole.ordered
  induction variants generalizing index σ with
  | nil => exact leads_pure nofun
  | cons first rest ih =>
    obtain ⟨key, payload⟩ := first
    have ofPayload : payload.IsWritten types rank := payloads _ List.mem_cons_self
    refine (leads_unionTag tracked ofTag).bind fun value _ step isTag => ?_
    have issued := issued.mono step.next
    refine leads_storedFields.bind fun fields _ step stored => ?_
    have issued := issued.mono step.next
    have arm (binding : Option Local) {σ : Session} (issued : Issued source σ)
        (takes : ∀ f, Shape.Stores types payload f →
          Takes source names ((binding.map Expr.place).getD .absent) f.name) :
        Leads types rank (.members source names) σ (do
          let captured ← Gen.capture do
            Gen.withHint tagField (em.encode tag value.expr)
            Gen.withHint key do
              em.encodeFields (← Gen.resolved payload) ((binding.map Expr.place).getD .absent)
          let arms ← encodeArms em type tagField tag tags (index + 1) rest
          return (.variant type key binding, captured.1) :: arms)
          fun arms r => ∀ arm ∈ arms, (Watch.members source names).All r arm.2 := by
      refine (leads_encodeArm whole tracked ofTag isTag value ofPayload takes issued).bind
        fun captured _ step holds => ?_
      refine (ih (fun v member => payloads v (List.mem_cons_of_mem _ member)) _
        (issued.mono step.next)).bind fun arms _ step others => leads_pure ?_
      exact List.forall_mem_cons.mpr ⟨holds.mono step.keeps, others⟩
    split
    case isTrue none =>
      -- Of nothing that is stored no field is taken.
      refine Leads.bind (leads_pure (Q := fun binding _ => binding = Option.none) rfl)
        fun binding _ step same => ?_
      cases same
      refine arm Option.none (issued.mono step.next) fun f stores => ?_
      have among := stores.mem ranked stored
      rw [List.isEmpty_iff.mp none] at among
      cases among
    case isFalse =>
      have given {σ : Session} : Leads types rank (.members source names) σ (some <$> Gen.alloc key)
          fun binding _ => ∃ x, binding = some x ∧ σ.draft.nextLocal ≤ x.id :=
        Leads.map (leads_alloc.weaken fun x _ fresh => ⟨x, rfl, fresh⟩)
      refine given.bind fun binding _ step fresh => ?_
      obtain ⟨x, rfl, fresh⟩ := fresh
      refine arm (some x) (issued.mono step.next) fun f _ => ?_
      exact ⟨projects_field (issued.clear fresh) projects_place, clear_field (issued.clear fresh)⟩

theorem leads_encodeUnion (whole : types.Written rank) (tracked : em.Tracked types rank)
    {tagField : String} {tag : Shape} {variants : List (String × Shape)}
    {tags : List (String × Literal)}
    (written : (Shape.union tagField tag variants tags).IsWritten types rank)
    (each : Projects source names e) (issued : Issued source σ) :
    Leads types rank (.members source names) σ (encodeUnion em tagField tag variants tags e)
      fun _ _ => True := by
  have payloads : ∀ v ∈ variants, v.2.IsWritten types rank := fun v member =>
    written.part whole (List.mem_cons_of_mem _ (List.mem_map_of_mem member))
  refine (leads_unionName whole tracked written).bind fun type _ step _ => ?_
  refine (leads_encodeArms whole tracked (written.part whole List.mem_cons_self) payloads _
    (issued.mono step.next)).bind fun arms _ _ holds => ?_
  refine leads_emit ?_ (List.forall_mem_map.mpr holds)
  exact List.forall_mem_singleton.mpr (each _)

theorem leads_encode (hooks : Hooks) (whole : types.Written rank) (tracked : em.Tracked types rank)
    (written : s.IsWritten types rank) (admits : s.isStored = true → Admits types source names s e)
    (issued : Issued source σ) :
    Leads types rank (.members source names) σ (encode hooks em s e) fun _ r =>
      s.isStructLike = true → (∃ fields, s.storedFields types = .ok fields) ∧
        ∃ type, r.constants.lookup (s.canonicalName types) = some type := by
  have other {act : Gen Unit} (plain : s.isStructLike = false)
      (leads : Leads types rank (.members source names) σ act fun _ _ => True) :
      Leads types rank (.members source names) σ act fun _ r =>
        s.isStructLike = true → (∃ fields, s.storedFields types = .ok fields) ∧
          ∃ type, r.constants.lookup (s.canonicalName types) = some type :=
    leads.weaken fun _ _ _ struct => absurd (plain.symm.trans struct) Bool.false_ne_true
  cases s with
  | prim p => exact other rfl (leads_write (admits rfl).each)
  | optional value presence =>
    refine other rfl ?_
    have among : presence ∈ (Shape.optional value presence).subshapes types :=
      List.mem_cons_of_mem _ List.mem_cons_self
    exact leads_encodeOptional tracked (written.part whole List.mem_cons_self)
      (written.part whole among) (admits rfl).each
      ((admits rfl).isClear (not_isTag trivial nofun nofun) rfl) issued
  | list item length =>
    refine other rfl ?_
    refine Leads.bind (leads_writeLength (admits rfl).each) fun _ _ step _ => ?_
    have issued := issued.mono step.next
    refine leads_alloc.bind fun x _ step fresh => ?_
    refine Leads.bind (Leads.capture (Leads.withHint (tracked.writes
      (written.part whole List.mem_cons_self) (fun _ => admits_place issued fresh)
      (issued.mono step.next)))) fun out _ _ holds => ?_
    exact leads_emit (List.forall_mem_singleton.mpr ((admits rfl).each _))
      (List.forall_mem_singleton.mpr holds.1)
  | map key value length =>
    refine other rfl ?_
    have among : value ∈ (Shape.map key value length).subshapes types :=
      List.mem_cons_of_mem _ List.mem_cons_self
    refine Leads.bind (leads_writeLength (admits rfl).each) fun _ _ step _ => ?_
    have issued := issued.mono step.next
    refine leads_alloc.bind fun k _ step fresh => ?_
    have place : Admits types source names key (.place k) := admits_place issued fresh
    have issued := issued.mono step.next
    refine leads_alloc.bind fun v _ step fresh => ?_
    have place' : Admits types source names value (.place v) := admits_place issued fresh
    have issued := issued.mono step.next
    refine Leads.bind (Leads.capture (Q := fun _ _ => True) ?_) fun out _ _ holds => ?_
    · refine Leads.bind (Leads.withHint (tracked.writes (written.part whole List.mem_cons_self)
        (fun _ => place) issued)) fun _ τ step _ => Leads.withHint ?_
      refine tracked.writes (written.part whole among) (fun _ => place') ?_
      exact fun i member => (issued i member).trans_le step.next
    · exact leads_emit (List.forall_mem_singleton.mpr ((admits rfl).each _))
        (List.forall_mem_singleton.mpr holds.1)
  | struct | merged | packed | flags =>
    -- The declaration comes first, so its name is known whatever is emitted for the fields.
    refine (leads_structName whole written (tracked.fieldTypes whole written)).discard.bind
      fun _ _ step known => ?_
    obtain ⟨type, known⟩ := known
    intro tracks u υ ran
    obtain ⟨step', stored⟩ := tracked.encodeFields source names _ e _ written
      (fun f => (admits rfl).takes rfl) (issued.mono step.next) tracks u υ ran
    exact ⟨step', fun _ => ⟨stored, type, step'.keeps _ _ known⟩⟩
  | enum backing entries =>
    refine other rfl ((leads_enumName whole written).bind fun type _ _ _ => leads_write ?_)
    exact (projects_iff nofun).mpr (List.forall_mem_singleton.mpr (admits rfl).each)
  | union tagField tag variants tags =>
    exact other rfl (leads_encodeUnion whole tracked written (admits rfl).each issued)
  | slot group index kind =>
    refine other rfl (leads_activeGroup?.bind fun _ _ _ _ => ?_)
    split
    · exact leads_throw
    · exact leads_pure trivial
  | «alias» name inner =>
    refine other rfl ((tracked.typeExpr _ _ _ written).discard.bind fun _ _ step _ => ?_)
    refine (tracked.encode source names inner e _ (written.part whole List.mem_cons_self)
      (fun _ => (admits rfl).behind ?_ rfl) (issued.mono step.next)).weaken fun _ _ _ => trivial
    exact fun u => Shape.resolves_inner
  | exported name inner =>
    refine other rfl ((tracked.typeExpr _ _ _ written).discard.bind fun _ _ _ _ => ?_)
    exact leads_emit (List.forall_mem_singleton.mpr ((admits rfl).each _)) nofun
  | ref label =>
    refine other rfl (leads_refs.bind fun found _ step same => ?_)
    cases same
    split
    case h_1 target known =>
      refine (tracked.encode source names target e _
        (written.part whole (Option.mem_toList.mpr known))
        (fun _ => (admits rfl).behind ?_ rfl) (issued.mono step.next)).weaken fun _ _ _ => trivial
      exact fun u => Shape.resolves_label known
    case h_2 => exact leads_throw
  | custom | transformed => exact absurd written.field (by simp [Shape.IsFieldShape, Shape.WellFormed])
  | literal value backing =>
    refine other rfl ?_
    cases backing with
    | some p => exact leads_write (projects_leaf rfl)
    | none => exact leads_pure trivial

/-! ### All shapes -/

theorem tracked_exhausted : Emitter.exhausted.Tracked types rank where
  typeExpr _ _ _ _ := leads_throw
  prepare _ _ _ _ := leads_throw
  decodeExpr _ _ _ := leads_throw
  decodeBindings _ _ _ := leads_throw
  encode _ _ _ _ _ _ _ _ := leads_throw
  encodeFields _ _ _ _ _ _ _ _ := leads_throw

/-- The emitters of all depths agree on members. -/
theorem tracked_emitter (hooks : Hooks) (whole : types.Written rank) (depth : Nat) :
    (emitter hooks depth).Tracked types rank := by
  induction depth with
  | zero => exact tracked_exhausted
  | succ depth ih =>
    exact {
      typeExpr := fun _ _ _ written => leads_typeExpr whole ih written
      prepare := fun _ _ _ written => leads_prepare whole ih written
      decodeExpr := fun _ _ written => leads_decodeExpr hooks whole ih written
      decodeBindings := fun _ _ written => leads_decodeBindings whole ih written
      encode := fun _ _ _ _ _ written admits issued =>
        leads_encode hooks whole ih written admits issued
      encodeFields := fun _ _ _ _ _ written takes issued =>
        leads_encodeFields whole ih written takes issued }

end Lowering

end WireSchema
