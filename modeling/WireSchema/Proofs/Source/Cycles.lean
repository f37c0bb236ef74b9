import Mathlib.Data.List.Nodup
import Mathlib.Data.List.Perm.Subperm
import Mathlib.Logic.Relation
import WireSchema.Source.Cycle

/-!
# Declarations that contain themselves

The search in depth succeeds if and only if no declaration is reached from itself. What it has
finished, last first, is an order in which every declaration comes before those it mentions, and so
gives each declaration a rank above theirs.

## Main results

* `exists_rank`: after a successful search every declaration has a rank above those it mentions.
* `check_ok_iff`: the search succeeds if and only if no declaration is reached from itself.
* `circle_of_check`: a refusal names a declaration that is reached from itself.
-/

namespace WireSchema.Source.Mentions

/-- The first name is that of a declaration which mentions the second. -/
def Edge (graph : Mentions) (a b : String) : Prop := b ∈ graph.of a

/-- No declaration is reached from itself. -/
def Acyclic (graph : Mentions) : Prop := ∀ name, ¬Relation.TransGen graph.Edge name name

/-- Every name of the list mentions only names after it, and comes once. -/
def Settled (graph : Mentions) : List String → Prop
  | [] => True
  | name :: rest => name ∉ rest ∧ (∀ other ∈ graph.of name, other ∈ rest) ∧ Settled graph rest

variable {graph : Mentions}

theorem Settled.nodup : ∀ {names : List String}, Settled graph names → names.Nodup
  | [], _ => .nil
  | _ :: _, ⟨fresh, _, settled⟩ => List.nodup_cons.mpr ⟨fresh, settled.nodup⟩

/-! ### What a search finishes -/

/-- What a search for `roots` through `path` makes of the finished names: they stay finished and
settled, the roots are finished, with names that are mentioned and none of the path. -/
structure Extends (graph : Mentions) (path roots before after : List String) : Prop where
  kept : ∀ name ∈ before, name ∈ after
  reached : ∀ name ∈ roots, name ∈ after
  settled : Settled graph before → Settled graph after
  pending : ∀ name ∈ path, name ∉ before → name ∉ after
  new : ∀ name ∈ after, name ∈ before ∨ name ∈ roots ∨ ∃ other, graph.Edge other name

/-- A search for several names, given what a search for one does. -/
theorem extends_foldlM {visit : List String → String → Except String (List String)}
    {path : List String} (each : ∀ before name after, visit before name = .ok after →
      Extends graph path [name] before after) :
    ∀ {names before after : List String}, names.foldlM visit before = .ok after →
      Extends graph path names before after
  | [], before, _, ran => by
    cases ran
    exact ⟨fun _ member => member, List.forall_mem_nil _, id, fun _ _ fresh => fresh,
      fun _ member => .inl member⟩
  | name :: names, before, after, ran => by
    rw [List.foldlM_cons] at ran
    cases first : visit before name with
    | error e =>
      rw [first] at ran
      cases ran
    | ok middle =>
      rw [first] at ran
      have early := each before name middle first
      have late := extends_foldlM each ran
      constructor
      case kept => exact fun other member => late.kept other (early.kept other member)
      case reached =>
        intro other member
        rcases List.mem_cons.mp member with rfl | later
        · exact late.kept _ (early.reached _ (List.mem_singleton.mpr rfl))
        · exact late.reached other later
      case settled => exact fun settled => late.settled (early.settled settled)
      case pending =>
        exact fun other inPath fresh => late.pending other inPath (early.pending other inPath fresh)
      case new =>
        intro other member
        rcases late.new other member with inMiddle | root | edge
        · rcases early.new other inMiddle with old | root | edge
          · exact .inl old
          · exact .inr (.inl (List.mem_singleton.mp root ▸ List.mem_cons_self ..))
          · exact .inr (.inr edge)
        · exact .inr (.inl (List.mem_cons_of_mem _ root))
        · exact .inr (.inr edge)

theorem extends_visit (graph : Mentions) (fuel : Nat) :
    ∀ {path before : List String} {name : String} {after : List String},
      graph.visit fuel path before name = .ok after → Extends graph path [name] before after := by
  -- Nothing changes for a finished name, one of the path is refused, and any other is finished after
  -- all the names that it mentions.
  induction fuel with
  | zero =>
    intro path before name after ran
    cases ran
  | succ fuel ih =>
    intro path before name after ran
    rw [visit] at ran
    by_cases done : name ∈ before
    · rw [if_pos (List.elem_iff.mpr done)] at ran
      cases ran
      exact ⟨fun _ member => member, fun _ member => List.mem_singleton.mp member ▸ done, id,
        fun _ _ fresh => fresh, fun _ member => .inl member⟩
    rw [if_neg (fun finished => done (List.elem_iff.mp finished))] at ran
    by_cases looped : name ∈ path
    · rw [if_pos (List.elem_iff.mpr looped)] at ran
      cases ran
    rw [if_neg (fun inPath => looped (List.elem_iff.mp inPath))] at ran
    cases within : (graph.of name).foldlM (graph.visit fuel (name :: path)) before with
    | error e =>
      rw [within] at ran
      cases ran
    | ok middle =>
      rw [within] at ran
      cases ran
      have step := extends_foldlM (fun _ _ _ found => ih found) within
      constructor
      case kept => exact fun other member => List.mem_cons_of_mem _ (step.kept other member)
      case reached => exact fun other member => List.mem_singleton.mp member ▸ List.mem_cons_self ..
      case settled =>
        -- The name itself is on the path while the names it mentions are finished.
        exact fun settled => ⟨step.pending name (List.mem_cons_self ..) done, step.reached,
          step.settled settled⟩
      case pending =>
        intro other inPath fresh member
        rcases List.mem_cons.mp member with rfl | later
        · exact looped inPath
        · exact step.pending other (List.mem_cons_of_mem _ inPath) fresh later
      case new =>
        intro other member
        rcases List.mem_cons.mp member with rfl | later
        · exact .inr (.inl (List.mem_singleton.mpr rfl))
        · rcases step.new other later with old | edge | edge
          · exact .inl old
          · exact .inr (.inr ⟨name, edge⟩)
          · exact .inr (.inr edge)

/-! ### Ranks -/

/-- The number of names after the given one. -/
def rankIn : List String → String → Nat
  | [], _ => 0
  | name :: rest, x => if x = name then rest.length else rankIn rest x

theorem rankIn_lt {x : String} : ∀ {names : List String}, x ∈ names → rankIn names x < names.length
  | name :: rest, member => by
    rw [rankIn, List.length_cons]
    split
    · exact Nat.lt_succ_self _
    · next other =>
      have later := (List.mem_cons.mp member).resolve_left other
      exact Nat.lt_succ_of_lt (rankIn_lt later)

theorem rankIn_missing {x : String} : ∀ {names : List String}, x ∉ names → rankIn names x = 0
  | [], _ => rfl
  | name :: rest, missing => by
    have other : x ≠ name := fun same => missing (same ▸ List.mem_cons_self ..)
    have later : x ∉ rest := fun member => missing (List.mem_cons_of_mem _ member)
    rw [rankIn, if_neg other, rankIn_missing later]

theorem rankIn_mention {x y : String} : ∀ {names : List String}, Settled graph names → x ∈ names →
    y ∈ graph.of x → rankIn names y < rankIn names x
  | name :: rest, ⟨fresh, mentioned, settled⟩, member, edge => by
    -- Whichever of the names mentions it, it comes after the first.
    have inRest : y ∈ rest := by
      rcases List.mem_cons.mp member with rfl | later
      · exact mentioned y edge
      · clear fresh mentioned member
        induction rest with
        | nil => cases later
        | cons other rest ih =>
          rcases List.mem_cons.mp later with rfl | deeper
          · exact List.mem_cons_of_mem _ (settled.2.1 y edge)
          · exact List.mem_cons_of_mem _ (ih settled.2.2 deeper)
    have notFirst : y ≠ name := fun same => fresh (same ▸ inRest)
    rw [rankIn, rankIn, if_neg notFirst]
    split
    · exact rankIn_lt inRest
    · next other =>
      exact rankIn_mention settled ((List.mem_cons.mp member).resolve_left other) edge

theorem mem_keys {name other : String} (edge : graph.Edge name other) : name ∈ graph.map (·.1) := by
  cases found : graph.lookup name with
  | none =>
    rw [Edge, of, found] at edge
    cases edge
  | some names =>
    obtain ⟨front, back, rfl, _⟩ := List.lookup_eq_some_iff.mp found
    simp

/-- After a successful search every declaration has a rank above those it mentions. -/
theorem exists_rank {names : List String} (checked : graph.check = .ok ())
    (keys : ∀ name ∈ graph.map (·.1), name ∈ names)
    (declared : ∀ name other, graph.Edge name other → other ∈ names) :
    ∃ rank : String → Nat, (∀ name other, graph.Edge name other → rank other < rank name) ∧
      ∀ name ∈ names, rank name < names.length := by
  cases visited : graph.visitAll with
  | error e =>
    rw [check, visited] at checked
    cases checked
  | ok finished =>
    have search := extends_foldlM (fun _ _ _ found => extends_visit graph _ found) visited
    have settled : Settled graph finished := search.settled trivial
    have sorted {name : String} : name ∈ (graph.map (·.1)).mergeSort (· ≤ ·) ↔
        name ∈ graph.map (·.1) := (List.mergeSort_perm _ _).mem_iff
    -- Whatever is finished is declared, so there are no more of them than declarations.
    have inside : finished ⊆ names := by
      intro name member
      rcases search.new name member with old | root | ⟨other, edge⟩
      · cases old
      · exact keys name (sorted.mp root)
      · exact declared other name edge
    have few : finished.length ≤ names.length := (settled.nodup.subperm inside).length_le
    refine ⟨rankIn finished, fun name other edge => ?_, fun name member => ?_⟩
    · exact rankIn_mention settled (search.reached name (sorted.mpr (mem_keys edge))) edge
    · by_cases known : name ∈ finished
      · exact Nat.lt_of_lt_of_le (rankIn_lt known) few
      · have some_ : 0 < names.length := List.length_pos_of_mem member
        rw [rankIn_missing known]
        exact some_

/-! ### Searches that fail -/

/-- A search for several names fails at one of them. -/
theorem foldlM_fails {visit : List String → String → Except String (List String)}
    {culprit : String} : ∀ {names before : List String},
      names.foldlM visit before = .error culprit →
      ∃ name ∈ names, ∃ middle, visit middle name = .error culprit
  | [], _, failed => nomatch failed
  | name :: names, before, failed => by
    rw [List.foldlM_cons] at failed
    cases first : visit before name with
    | error e =>
      rw [first] at failed
      cases failed
      exact ⟨name, List.mem_cons_self .., before, first⟩
    | ok middle =>
      rw [first] at failed
      obtain ⟨other, later, found⟩ := foldlM_fails failed
      exact ⟨other, List.mem_cons_of_mem _ later, found⟩

/-- A search that fails names a declaration that is reached from itself. The names of a path mention
others and come once; hence a path is no longer than the graph, and the fuel does not run out. -/
theorem circle_of_visit (fuel : Nat) : ∀ {path before : List String} {name culprit : String},
    path.Nodup → path ⊆ graph.map (·.1) →
    (∀ other ∈ path, Relation.TransGen graph.Edge other name) →
    graph.length < fuel + path.length → graph.visit fuel path before name = .error culprit →
    Relation.TransGen graph.Edge culprit culprit := by
  induction fuel with
  | zero =>
    -- Such a path would have more names than the graph.
    intro path before name culprit nodup inside _ enough _
    have few := (nodup.subperm inside).length_le
    rw [List.length_map] at few
    omega
  | succ fuel ih =>
    intro path before name culprit nodup inside reaches enough failed
    rw [visit] at failed
    by_cases done : name ∈ before
    · rw [if_pos (List.elem_iff.mpr done)] at failed
      cases failed
    rw [if_neg (fun finished => done (List.elem_iff.mp finished))] at failed
    by_cases looped : name ∈ path
    · rw [if_pos (List.elem_iff.mpr looped)] at failed
      cases failed
      -- The name is on the path that has led to it.
      exact reaches name looped
    rw [if_neg (fun inPath => looped (List.elem_iff.mp inPath))] at failed
    cases within : (graph.of name).foldlM (graph.visit fuel (name :: path)) before with
    | ok middle =>
      rw [within] at failed
      cases failed
    | error e =>
      rw [within] at failed
      cases failed
      obtain ⟨child, edge, middle, found⟩ := foldlM_fails within
      refine ih (List.nodup_cons.mpr ⟨looped, nodup⟩) ?_ ?_ ?_ found
      · exact List.cons_subset.mpr ⟨mem_keys edge, inside⟩
      · intro other member
        rcases List.mem_cons.mp member with rfl | later
        · exact .single edge
        · exact (reaches other later).tail edge
      · rw [List.length_cons]
        omega

/-- A refusal names a declaration that is reached from itself. -/
theorem circle_of_check {e : SchemaError} (refused : graph.check = .error e) :
    ∃ name, e = .parse ("recursive type " ++ name) ∧ Relation.TransGen graph.Edge name name := by
  cases visited : graph.visitAll with
  | ok finished =>
    rw [check, visited] at refused
    cases refused
  | error culprit =>
    rw [check, visited] at refused
    cases refused
    obtain ⟨name, _, before, found⟩ := foldlM_fails visited
    refine ⟨culprit, rfl, ?_⟩
    refine circle_of_visit _ .nil (List.nil_subset _) (List.forall_mem_nil _) ?_ found
    rw [List.length_nil]
    omega

theorem check_of_acyclic (acyclic : graph.Acyclic) : graph.check = .ok () := by
  cases checked : graph.check with
  | ok => rfl
  | error e =>
    obtain ⟨name, _, circle⟩ := circle_of_check checked
    exact (acyclic name circle).elim

/-- Names with ranks above those they mention are not reached from themselves. -/
theorem acyclic_of_rank {rank : String → Nat}
    (lower : ∀ name other, graph.Edge name other → rank other < rank name) : graph.Acyclic := by
  have falls {a b : String} (path : Relation.TransGen graph.Edge a b) : rank b < rank a := by
    induction path with
    | single edge => exact lower _ _ edge
    | tail _ edge ih => exact Nat.lt_trans (lower _ _ edge) ih
  exact fun name circle => Nat.lt_irrefl _ (falls circle)

/-- The search is exact: it succeeds if and only if no declaration is reached from itself. -/
theorem check_ok_iff : graph.check = .ok () ↔ graph.Acyclic := by
  refine ⟨fun checked => ?_, check_of_acyclic⟩
  have mentioned {name other : String} (edge : graph.Edge name other) :
      other ∈ graph.flatMap (·.2) := by
    rw [Edge, of] at edge
    cases found : graph.lookup name with
    | none =>
      rw [found] at edge
      cases edge
    | some names =>
      rw [found] at edge
      obtain ⟨front, back, same, _⟩ := List.lookup_eq_some_iff.mp found
      refine List.mem_flatMap.mpr ⟨(name, names), ?_, edge⟩
      rw [same]
      exact List.mem_append_right _ (List.mem_cons_self ..)
  -- Here any names may be mentioned, so those are ranked along with the ones that have mentions.
  have keys : ∀ name ∈ graph.map (·.1), name ∈ graph.map (·.1) ++ graph.flatMap (·.2) :=
    fun _ member => List.mem_append_left _ member
  have declared (name other : String) (edge : graph.Edge name other) :
      other ∈ graph.map (·.1) ++ graph.flatMap (·.2) := List.mem_append_right _ (mentioned edge)
  obtain ⟨rank, lower, _⟩ := exists_rank checked keys declared
  exact acyclic_of_rank lower

end WireSchema.Source.Mentions
