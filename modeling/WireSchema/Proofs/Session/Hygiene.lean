import WireSchema.Proofs.Elision.Hygiene
import WireSchema.Proofs.Session.Growth

/-!
# Drafts are hygienic

Every binding that a draft gives out has a number and a name of its own, and the name is neither a
keyword nor reserved. What a computation emits is scoped by what was in force before, and introduces
only bindings that were given out for it.
-/

namespace WireSchema

open Ir

/-! ### Free names -/

namespace Draft

variable {d d' d'' : Draft}

/-- The candidates for the name of a binding. -/
abbrev candidate (base : String) (n : Nat) : String :=
  if n = 0 then base else stem base ++ "_" ++ toString n

theorem candidate_unique {base : String} {m n : Nat} (first : m ≠ 0) (second : n ≠ 0)
    (same : candidate base m = candidate base n) : m = n := by
  rw [candidate, candidate, if_neg first, if_neg second] at same
  exact Nat.repr_unique (String.append_right_inj _ |>.mp same)

/-- A numbered candidate has an underscore, which no keyword and no reserved name has. -/
theorem mem_taken_of_candidate {base : String} {n : Nat} (numbered : n ≠ 0)
    (taken : d.isTaken (candidate base n) = true) : candidate base n ∈ d.taken := by
  have score : '_' ∈ (candidate base n).toList := by
    rw [candidate, if_neg numbered]
    simp
  have plain : ∀ word ∈ Naming.reservedLocals ++ Naming.keywords, '_' ∉ word.toList := by decide
  simp only [isTaken, Naming.isKeyword, Bool.or_eq_true, List.contains_iff_mem] at taken
  rcases taken with (reserved | keyword) | taken
  · exact absurd score (plain _ (List.mem_append_left _ reserved))
  · exact absurd score (plain _ (List.mem_append_right _ keyword))
  · exact taken

/-- The numbers suffice: the name that is given is free. -/
theorem freeName_free (d : Draft) (requested : String) :
    d.isTaken (d.freeName requested) = false := by
  let base := Naming.bindingName requested
  obtain ⟨k, _, high, found, before, full⟩ :=
    firstFree_spec d.isTaken (candidate base) (d.taken.length + 1) 0
  change d.isTaken (firstFree d.isTaken (candidate base) (d.taken.length + 1) 0) = false
  rw [found]
  by_contra taken
  have taken : d.isTaken (candidate base k) = true := by simpa using taken
  have last : k = d.taken.length + 1 := by simpa using full taken
  -- The numbered candidates up to `k` would all be taken, and there are more of them than names.
  have distinct : ((List.range' 1 k).map (candidate base)).Nodup := by
    refine List.Nodup.map_on (fun m first n second same => ?_) List.nodup_range'
    simp only [List.mem_range'_1] at first second
    exact candidate_unique (by omega) (by omega) same
  have among : ((List.range' 1 k).map (candidate base)) ⊆ d.taken := by
    intro name member
    obtain ⟨i, below, rfl⟩ := List.mem_map.mp member
    simp only [List.mem_range'_1] at below
    refine mem_taken_of_candidate (by omega) ?_
    by_cases same : i = k
    · rw [same]
      exact taken
    · exact before i (by omega) (by omega)
  have short := (distinct.subperm among).length_le
  simp at short
  omega

/-! ### Bindings that are given out -/

/-- From the first draft to the second the given bindings were given out, in order. -/
structure Gives (d d' : Draft) (given : List Local) : Prop where
  next : d'.nextLocal = d.nextLocal + given.length
  ids : given.map (·.id) = List.range' d.nextLocal given.length
  taken : d'.taken = (given.map (·.name)).reverse ++ d.taken
  names : (given.map (·.name)).Nodup
  free : ∀ x ∈ given, d.isTaken x.name = false

theorem Gives.refl (d : Draft) : d.Gives d [] where
  next := rfl
  ids := rfl
  taken := rfl
  names := .nil
  free := nofun

theorem Gives.trans {given given' : List Local} (first : d.Gives d' given)
    (second : d'.Gives d'' given') : d.Gives d'' (given ++ given') := by
  -- Names are only ever added to those taken, so a later name differs from all earlier ones.
  have later (x : Local) (member : x ∈ given') :
      x.name ∉ given.map (·.name) ∧ d.isTaken x.name = false := by
    have free := second.free x member
    simp only [isTaken, first.taken, Bool.or_eq_false_iff, List.contains_eq_mem,
      decide_eq_false_iff_not, List.mem_append, List.mem_reverse, not_or] at free ⊢
    exact ⟨free.2.1, free.1, free.2.2⟩
  constructor
  case next => rw [second.next, first.next, List.length_append, Nat.add_assoc]
  case ids =>
    rw [List.map_append, first.ids, second.ids, first.next, List.length_append,
      List.range'_append_1]
  case taken => simp [second.taken, first.taken]
  case names =>
    rw [List.map_append]
    refine first.names.append second.names fun name here there => ?_
    obtain ⟨x, member, rfl⟩ := List.mem_map.mp there
    exact (later x member).1 here
  case free =>
    intro x member
    rcases List.mem_append.mp member with early | late
    · exact first.free x early
    · exact (later x late).2

theorem Gives.distinct {given : List Local} (gives : d.Gives d' given) :
    (given.map (·.id)).Nodup := by
  rw [gives.ids]
  exact List.nodup_range'

theorem Gives.range {given : List Local} (gives : d.Gives d' given) {x : Local}
    (member : x ∈ given) : d.nextLocal ≤ x.id ∧ x.id < d'.nextLocal := by
  have inside : x.id ∈ given.map (·.id) := List.mem_map_of_mem member
  rw [gives.ids, List.mem_range'_1, ← gives.next] at inside
  exact inside

theorem Gives.mono {given : List Local} (gives : d.Gives d' given) :
    d.nextLocal ≤ d'.nextLocal := by
  rw [gives.next]
  exact Nat.le_add_right _ _

theorem gives_fresh {name : String} (free : d.isTaken name = false) :
    d.Gives (d.fresh name).2 [(d.fresh name).1] where
  next := rfl
  ids := rfl
  taken := rfl
  names := List.nodup_singleton _
  free x member := by
    rw [List.mem_singleton.mp member]
    exact free

theorem scopes_updateScope {scope : Scope} {outer : List Scope} (same : d.scopes = scope :: outer)
    (f : Scope → Scope) : (d.updateScope f).scopes = f scope :: outer := by
  simp [updateScope, same]

theorem Gives.updateScope {given : List Local} (gives : d.Gives d' given) (f : Scope → Scope) :
    d.Gives (d'.updateScope f) given where
  next := by rw [nextLocal_updateScope, gives.next]
  ids := gives.ids
  taken := by rw [taken_updateScope, gives.taken]
  names := gives.names
  free := gives.free

/-- The second draft has the statements added in its innermost scope, and the given bindings given
out. -/
structure Grows (d d' : Draft) (added : List Stmt) (given : List Local) : Prop
    extends Gives d d' given where
  scopes : ∀ scope outer, d.scopes = scope :: outer →
    ∃ names, d'.scopes = ⟨scope.stmts ++ added, names⟩ :: outer
  groups : d'.groups = d.groups

theorem Grows.refl (d : Draft) : d.Grows d [] [] where
  toGives := .refl d
  scopes scope outer same := ⟨scope.names, by rw [same, List.append_nil]⟩
  groups := rfl

theorem Grows.trans {added added' : List Stmt} {given given' : List Local}
    (first : d.Grows d' added given) (second : d'.Grows d'' added' given') :
    d.Grows d'' (added ++ added') (given ++ given') where
  toGives := first.toGives.trans second.toGives
  scopes scope outer same := by
    obtain ⟨names, same'⟩ := first.scopes scope outer same
    obtain ⟨names', same''⟩ := second.scopes _ _ same'
    exact ⟨names', by rw [same'', List.append_assoc]⟩
  groups := second.groups.trans first.groups

theorem grows_emit (d : Draft) (s : Stmt) : d.Grows (d.emit s) [s] [] where
  toGives := (Gives.refl d).updateScope _
  scopes scope _ same := ⟨scope.names, scopes_updateScope same _⟩
  groups := groups_updateScope d _

theorem grows_alloc (d : Draft) (requested : String) :
    d.Grows (d.alloc requested).2 [] [(d.alloc requested).1] where
  toGives := (gives_fresh (d.freeName_free requested)).updateScope _
  scopes scope _ same := by
    rw [List.append_nil]
    exact ⟨_, scopes_updateScope (d := (d.fresh (d.freeName requested)).2) same _⟩
  groups := groups_updateScope _ _

/-- What was added in a scope of its own is taken out again. -/
theorem Grows.pop {added : List Stmt} {given : List Local}
    (grows : d.pushScope.Grows d' added given) :
    d'.popScope.1.stmts = added ∧ d.Grows d'.popScope.2 [] given := by
  obtain ⟨names, same⟩ := grows.scopes {} d.scopes rfl
  have popped : d'.popScope = (⟨added, names⟩, { d' with scopes := d.scopes }) := by
    simp [popScope, same]
  rw [popped]
  refine ⟨rfl, ⟨grows.next, grows.ids, grows.taken, grows.names, grows.free⟩, ?_, grows.groups⟩
  intro scope outer there
  exact ⟨scope.names, by simp [there]⟩

/-- What was added in a scope of its own is added to the scope around it. -/
theorem Grows.join {added : List Stmt} {given : List Local}
    (grows : d.pushScope.Grows d' added given) :
    d.Grows (d'.popScope.2.join d'.popScope.1) added given := by
  obtain ⟨stmts, popped⟩ := grows.pop
  refine ⟨popped.toGives.updateScope _, fun scope outer same => ?_, ?_⟩
  · obtain ⟨names, same'⟩ := popped.scopes scope outer same
    exact ⟨_, (scopes_updateScope same' _).trans (by rw [List.append_nil, stmts])⟩
  · exact (groups_updateScope _ _).trans popped.groups

/-- The bindings in force and those that wait to be introduced were given out before, and the
integers of the bit groups at hand are in force. -/
structure Serves (d : Draft) (visible : List Binder) (waiting : List Local) : Prop where
  inForce : ∀ b ∈ visible, b.var.id < d.nextLocal
  known : ∀ x ∈ waiting, x.id < d.nextLocal
  groups : ∀ g ∈ d.groups, ∀ raw, g.raw = some raw → raw.Scoped Binder.Among visible

/-- What is introduced and what waits afterwards was given out, or waited before. -/
def Owned (added : List Stmt) (waiting' given waiting : List Local) : Prop :=
  ((Stmt.introduced added).map (·.var) ++ waiting').Subperm (given ++ waiting)

theorem Owned.rest {added : List Stmt} {waiting' given waiting : List Local}
    (owned : Owned added waiting' given waiting) : waiting'.Subperm (given ++ waiting) :=
  (List.sublist_append_right _ _).subperm.trans owned

theorem Owned.trans {added added' : List Stmt}
    {given given' waiting waiting' waiting'' : List Local}
    (first : Owned added waiting' given waiting) (second : Owned added' waiting'' given' waiting') :
    Owned (added ++ added') waiting'' (given ++ given') waiting := by
  refine List.subperm_iff_count.mpr fun x => ?_
  have early := List.subperm_iff_count.mp first x
  have late := List.subperm_iff_count.mp second x
  simp only [Stmt.introduced_append, List.map_append, List.count_append] at early late ⊢
  omega

end Draft

theorem Ir.Expr.Scoped.widen {visible visible' : List Binder} {e : Expr}
    (seen : e.Scoped Binder.Among visible) (wider : ∀ b ∈ visible, b ∈ visible') :
    e.Scoped Binder.Among visible' := by
  intro x used
  obtain ⟨settable, member⟩ := seen x used
  exact ⟨settable, wider _ member⟩

namespace Draft

variable {d d' : Draft} {visible : List Binder} {waiting : List Local}

theorem Serves.grow {added : List Stmt} {given waiting' : List Local}
    (serves : d.Serves visible waiting) (grows : d.Grows d' added given)
    (owned : Owned added waiting' given waiting) :
    d'.Serves (Stmt.after visible added) waiting' := by
  have known (x : Local) (member : x ∈ given ++ waiting) : x.id < d'.nextLocal := by
    rcases List.mem_append.mp member with new | old
    · exact (grows.range new).2
    · exact Nat.lt_of_lt_of_le (serves.known x old) grows.mono
  constructor
  case inForce =>
    intro b member
    rcases Stmt.mem_of_mem_after member with old | new
    · exact Nat.lt_of_lt_of_le (serves.inForce b old) grows.mono
    · exact known _ (owned.subset (List.mem_append_left _ (List.mem_map_of_mem new)))
  case known => exact fun x member => known x (owned.subset (List.mem_append_right _ member))
  case groups =>
    intro g member raw found
    exact (serves.groups g (grows.groups ▸ member) raw found).widen fun b => Stmt.mem_after_of_mem

end Draft

/-! ### Hygienic bodies -/

namespace Ir

/-- The binders of a body have distinct numbers and names, none of which is a keyword or a name that
functions use for their own; and every occurrence of a binding finds it, by its number and by its
name. -/
structure Stmt.Hygienic (params : List Binder) (stmts : List Stmt) : Prop where
  ids : ((params ++ introduced stmts).map (·.var.id)).Nodup
  names : ((introduced stmts).map (·.var.name)).Nodup
  plain : ∀ b ∈ introduced stmts,
    Naming.isKeyword b.var.name = false ∧ b.var.name ∉ ["r", "w", "value", "self"]
  found : Scoped Binder.Resolves params stmts

/-- Both functions of the codec are hygienic. -/
structure CodecDecl.Hygienic (c : CodecDecl) : Prop where
  decode : Stmt.Hygienic [] c.decode.body
  encode : Stmt.Hygienic [.fixed c.value] c.encode

end Ir

/-- A scoped body is hygienic, if it introduces bindings that were given out since its parameter
was, and the parameter has one of the names that are not given out. -/
theorem Draft.Gives.hygienic {d d' : Draft} {given : List Local} (gives : d.Gives d' given)
    {params : List Binder} {stmts : List Stmt} (holds : Stmt.Scoped Binder.Among params stmts)
    (owned : ((Stmt.introduced stmts).map (·.var)).Subperm given)
    (single : params = [] ∨ ∃ x : Local, params = [.fixed x] ∧ x.id < d.nextLocal ∧
      x.name ∈ ["value", "self"]) : Stmt.Hygienic params stmts := by
  have member {b : Binder} (new : b ∈ Stmt.introduced stmts) : b.var ∈ given :=
    owned.subset (List.mem_map_of_mem new)
  have ids : ((Stmt.introduced stmts).map (·.var.id)).Nodup := by
    have distinct := distinct_of_subperm gives.distinct owned
    rwa [List.map_map] at distinct
  have names : ((Stmt.introduced stmts).map (·.var.name)).Nodup := by
    have distinct := distinct_of_subperm gives.names owned
    rwa [List.map_map] at distinct
  have plain : ∀ b ∈ Stmt.introduced stmts,
      Naming.isKeyword b.var.name = false ∧ b.var.name ∉ ["r", "w", "value", "self"] := by
    intro b new
    have free := gives.free _ (member new)
    simp only [isTaken, Naming.reservedLocals, Bool.or_eq_false_iff, List.contains_eq_mem,
      decide_eq_false_iff_not] at free
    refine ⟨free.1.2, fun reserved => ?_⟩
    -- The first three names are reserved, and `self` is a keyword.
    have self : Naming.isKeyword "self" = true := by decide
    simp only [List.mem_cons, List.not_mem_nil, or_false, not_or] at reserved free
    rcases reserved with same | same | same | same
    · exact free.1.1.1 same
    · exact free.1.1.2.1 same
    · exact free.1.1.2.2 same
    · rw [same, self] at free
      exact absurd free.1.2 (by decide)
  rcases single with rfl | ⟨x, rfl, early, name⟩
  · exact ⟨ids, names, plain, holds.resolves ids names⟩
  · -- The parameter is older than every binding, and its name is none that is given out.
    have ids' : (([Binder.fixed x] ++ Stmt.introduced stmts).map (·.var.id)).Nodup := by
      refine List.nodup_cons.mpr ⟨fun same => ?_, ids⟩
      obtain ⟨b, new, same⟩ := List.mem_map.mp same
      have late := (gives.range (member new)).1
      simp only [Binder.fixed] at same
      omega
    have names' : (([Binder.fixed x] ++ Stmt.introduced stmts).map (·.var.name)).Nodup := by
      refine List.nodup_cons.mpr ⟨fun same => ?_, names⟩
      obtain ⟨b, new, same⟩ := List.mem_map.mp same
      refine (plain b new).2 ?_
      rw [same]
      exact List.mem_cons_of_mem _ (List.mem_cons_of_mem _ name)
    exact ⟨ids', names, plain, holds.resolves ids' names'⟩

/-- All codecs that are finished are hygienic. -/
def Registry.Hygienic (r : Registry) : Prop := ∀ c, .codec c ∈ r.finished → c.Hygienic

/-- The session has the given references and a hygienic registry. -/
structure Session.Fits (types : Refs) (σ : Session) : Prop where
  refs : σ.refs = types
  codecs : σ.registry.Hygienic

namespace Registry

variable {r : Registry}

theorem hygienic_reserve (clean : r.Hygienic) (name : String) : (r.reserve name).Hygienic := by
  intro c member
  refine clean c ?_
  simpa [finished, reserve] using member

theorem hygienic_addConstant (clean : r.Hygienic) (key name : String) :
    (r.addConstant key name).Hygienic := clean

theorem hygienic_addAlias (clean : r.Hygienic) (signature name : String) :
    (r.addAlias signature name).2.Hygienic := by
  unfold addAlias
  split <;> exact clean

theorem hygienic_addFunction (clean : r.Hygienic) (path : String) (f : HostFunction) :
    (r.addFunction path f).Hygienic := by
  unfold addFunction
  split <;> exact clean

theorem hygienic_fill (clean : r.Hygienic) {d : Decl} (new : ∀ c, d = .codec c → c.Hygienic)
    (name : String) : (r.fill name d).Hygienic := by
  intro c member
  obtain ⟨slot, among, here⟩ := List.mem_filterMap.mp member
  rcases mem_fill.mp among with ⟨_, early⟩ | ⟨rfl, _⟩
  · exact clean c (List.mem_filterMap.mpr ⟨slot, early, here⟩)
  · exact new c (Option.some.inj here)

end Registry

/-! ### Computations that keep the registry hygienic -/

namespace Gen

/-- The computation leads from sessions that fit to such sessions, and `Q` holds of its value. -/
def Keeps (types : Refs) {α : Type} (act : Gen α) (Q : α → Prop) : Prop :=
  ∀ σ a τ, Runs act σ a τ → σ.Fits types → τ.Fits types ∧ Q a

variable {types : Refs} {α β : Type}

theorem keeps_pure {a : α} {Q : α → Prop} (holds : Q a) : Keeps types (pure a) Q := by
  intro σ b τ ran fits
  obtain ⟨rfl, rfl⟩ := runs_pure.mp ran
  exact ⟨fits, holds⟩

theorem keeps_throw {e : SchemaError} {Q : α → Prop} : Keeps types (throw e) Q :=
  fun _ _ _ ran => (runs_throw.mp ran).elim

theorem Keeps.bind {act : Gen α} {next : α → Gen β} {Q : α → Prop} {Q' : β → Prop}
    (first : Keeps types act Q) (second : ∀ a, Q a → Keeps types (next a) Q') :
    Keeps types (act >>= next) Q' := by
  intro σ b τ ran fits
  obtain ⟨a, σ₁, ran₁, ran₂⟩ := runs_bind.mp ran
  obtain ⟨fits₁, holds⟩ := first σ a σ₁ ran₁ fits
  exact second a holds σ₁ b τ ran₂ fits₁

theorem Keeps.discard {act : Gen α} {Q : α → Prop} (keeps : Keeps types act Q) :
    Keeps types (discard act) fun _ => True := by
  intro σ u τ ran fits
  obtain ⟨a, ran⟩ := runs_discard.mp ran
  exact ⟨(keeps σ a τ ran fits).1, trivial⟩

/-- A computation that only looks at the session. -/
theorem keeps_look {act : Gen α} {Q : α → Prop}
    (looks : ∀ σ a τ, Runs act σ a τ → σ.refs = types → τ = σ ∧ Q a) : Keeps types act Q := by
  intro σ a τ ran fits
  obtain ⟨rfl, holds⟩ := looks σ a τ ran fits.refs
  exact ⟨fits, holds⟩

theorem keeps_ofExcept {result : Except SchemaError α} :
    Keeps types (ofExcept result) fun a => result = .ok a :=
  keeps_look fun _ _ _ ran _ => (runs_ofExcept.mp ran).symm

theorem keeps_refs : Keeps types refs (· = types) := by
  refine keeps_look fun σ found τ ran same => ?_
  obtain ⟨rfl, rfl⟩ := runs_refs.mp ran
  exact ⟨rfl, same⟩

theorem keeps_registry : Keeps types registry fun _ => True :=
  keeps_look fun _ _ _ ran _ => ⟨(runs_registry.mp ran).2, trivial⟩

theorem keeps_canonicalName {s : Shape} : Keeps types (canonicalName s) fun _ => True :=
  keeps_look fun _ _ _ ran _ => ⟨(runs_canonicalName.mp ran).2, trivial⟩

theorem keeps_resolved {s : Shape} :
    Keeps types (resolved s) fun found => s.resolved types = .ok found := by
  refine keeps_look fun σ found τ ran same => ?_
  obtain ⟨ok, rfl⟩ := runs_resolved.mp ran
  exact ⟨rfl, same ▸ ok⟩

theorem keeps_storedFields {s : Shape} :
    Keeps types (storedFields s) fun fields => s.storedFields types = .ok fields := by
  refine keeps_look fun σ found τ ran same => ?_
  obtain ⟨ok, rfl⟩ := runs_storedFields.mp ran
  exact ⟨rfl, same ▸ ok⟩

theorem keeps_aliasOf? {signature : String} : Keeps types (aliasOf? signature) fun _ => True :=
  keeps_look fun _ _ _ ran _ => ⟨(runs_aliasOf?.mp ran).2, trivial⟩

theorem keeps_hintName {fallback : String} : Keeps types (hintName fallback) fun _ => True :=
  keeps_look fun _ _ _ ran _ => ⟨(runs_hintName.mp ran).2, trivial⟩

theorem keeps_lastHint {fallback : String} : Keeps types (lastHint fallback) fun _ => True :=
  keeps_look fun _ _ _ ran _ => ⟨(runs_lastHint.mp ran).2, trivial⟩

theorem Keeps.withHint {hint : String} {act : Gen α} {Q : α → Prop} (keeps : Keeps types act Q) :
    Keeps types (withHint hint act) Q := by
  intro σ a τ ran fits
  obtain ⟨σ₁, inner, rfl⟩ := runs_withHint.mp ran
  obtain ⟨fits', holds⟩ := keeps _ _ _ inner ⟨fits.refs, fits.codecs⟩
  exact ⟨⟨fits'.refs, fits'.codecs⟩, holds⟩

theorem Keeps.nested {hint : String} {act : Gen α} {Q : α → Prop} (keeps : Keeps types act Q) :
    Keeps types (nested hint act) Q := by
  intro σ a τ ran fits
  obtain ⟨σ₁, inner, rfl⟩ := runs_nested.mp ran
  obtain ⟨fits', holds⟩ := keeps _ _ _ inner ⟨fits.refs, fits.codecs⟩
  exact ⟨⟨fits'.refs, fits'.codecs⟩, holds⟩

theorem keeps_registerFunction {path : String} {f : HostFunction} :
    Keeps types (registerFunction path f) fun _ => True := by
  intro σ a τ ran fits
  cases runs_updateRegistry.mp ran
  exact ⟨⟨fits.refs, Registry.hygienic_addFunction fits.codecs _ _⟩, trivial⟩

theorem keeps_registerAlias {signature name : String} :
    Keeps types (registerAlias signature name) fun _ => True := by
  intro σ a τ ran fits
  obtain ⟨_, rfl⟩ := runs_registerAlias.mp ran
  exact ⟨⟨fits.refs, Registry.hygienic_addAlias fits.codecs _ _⟩, trivial⟩

/-- The declaration is no codec, or a hygienic one. -/
def CleanDecl (d : Decl) : Prop := ∀ c, d = .codec c → c.Hygienic

theorem keeps_registerGlobal {name : String} {define : Gen Decl}
    (keeps : Keeps types define CleanDecl) :
    Keeps types (registerGlobal name define) fun _ => True := by
  intro σ a τ ran fits
  obtain ⟨_, ⟨_, rfl⟩ | ⟨_, d, σ₁, defined, rfl⟩⟩ := runs_registerGlobal.mp ran
  · exact ⟨fits, trivial⟩
  · obtain ⟨fits', clean⟩ := keeps _ _ _ defined
      ⟨fits.refs, Registry.hygienic_reserve fits.codecs name⟩
    exact ⟨⟨fits'.refs, Registry.hygienic_fill fits'.codecs clean name⟩, trivial⟩

theorem keeps_registerConstant {key desired : String} {define : String → Gen Decl}
    (keeps : ∀ name, Keeps types (define name) CleanDecl) :
    Keeps types (registerConstant key desired define) fun _ => True := by
  intro σ a τ ran fits
  rcases runs_registerConstant.mp ran with ⟨_, rfl⟩ | ⟨_, rfl, d, σ₁, defined, rfl⟩
  · exact ⟨fits, trivial⟩
  · obtain ⟨fits', clean⟩ := keeps _ _ _ _ defined ⟨fits.refs,
      Registry.hygienic_reserve (Registry.hygienic_addConstant fits.codecs key _) _⟩
    exact ⟨⟨fits'.refs, Registry.hygienic_fill fits'.codecs clean _⟩, trivial⟩

theorem keeps_mapM {f : α → Gen β} {items : List α} {Q : β → Prop}
    (each : ∀ a ∈ items, Keeps types (f a) Q) :
    Keeps types (items.mapM f) fun bs => ∀ b ∈ bs, Q b := by
  induction items with
  | nil =>
    rw [List.mapM_nil]
    exact keeps_pure nofun
  | cons first rest ih =>
    rw [List.mapM_cons]
    refine (each first (by simp)).bind fun b holds => ?_
    refine (ih fun a member => each a (by simp [member])).bind fun bs others => keeps_pure ?_
    exact List.forall_mem_cons.mpr ⟨holds, others⟩

theorem keeps_forM {f : α → Gen Unit} {items : List α}
    (each : ∀ a ∈ items, Keeps types (f a) fun _ => True) :
    Keeps types (items.forM f) fun _ => True := by
  induction items with
  | nil => exact keeps_pure trivial
  | cons first rest ih =>
    exact (each first (by simp)).bind fun _ _ => ih fun a member => each a (by simp [member])

end Gen

end WireSchema
