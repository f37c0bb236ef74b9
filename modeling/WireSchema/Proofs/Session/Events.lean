import WireSchema.Proofs.Session.Growth

/-!
# What happens to a registry

A registry is told by the events that led to it: definitions that were begun and have finished or
failed, and aliases and functions that were registered. An event is allowed if the registry before
it permits it; a definition is begun only for a new name and a new key, and finished only while its
slot is open.

## Main results

* `Records.replay`: a registry that allowed events lead to records all of them.
* `Records.persists`: what a registry records is still there after further events.
-/

namespace WireSchema.Registry

open Ir

/-- Something that happens to a registry. -/
inductive Event where
  /-- The definition of a name is begun, for a constant under its key. -/
  | begun (key : Option String) (name : String)
  | finished (name : String) (d : Decl)
  | failed (name : String)
  /-- A name was registered for a signature. -/
  | named (signature name : String)
  /-- A function was registered for a path. -/
  | provided (path : String) (f : HostFunction)

namespace Event

/-- The registry after the event. -/
def apply (r : Registry) : Event → Registry
  | begun none name => r.reserve name
  | begun (some key) name => (r.addConstant key name).reserve name
  | finished name d => r.fill name d
  | failed _ => r
  | named signature name => (r.addAlias signature name).2
  | provided path f => r.addFunction path f

/-- The name whose definition is begun. -/
def begunName? : Event → Option String
  | begun _ name => some name
  | _ => none

/-- The key under which a constant is begun, and its name. -/
def begunKey? : Event → Option (String × String)
  | begun (some key) name => some (key, name)
  | _ => none

/-- What the definition of `name` finishes with. -/
def declaration? (name : String) : Event → Option Decl
  | finished other d => if other = name then some d else none
  | _ => none

/-- The name that is registered for `signature`. -/
def aliasOf? (signature : String) : Event → Option String
  | named other name => if other = signature then some name else none
  | _ => none

/-- The function that is registered for `path`. -/
def functionAt? (path : String) : Event → Option HostFunction
  | provided other f => if other = path then some f else none
  | _ => none

/-- The registry permits the event. -/
def Allowed (r : Registry) : Event → Prop
  | begun key name => r.isDeclared name = false ∧ ∀ k, key = some k → r.constants.lookup k = none
  | finished name _ => (name, none) ∈ r.slots
  | failed name => (name, none) ∈ r.slots
  | named _ _ => True
  | provided _ _ => True

end Event

/-- The registry after the events. -/
def replay (r : Registry) (events : List Event) : Registry := events.foldl Event.apply r

/-- The names whose definition is begun, in order. -/
def begunNames (events : List Event) : List String := events.filterMap Event.begunName?

/-- The keys under which constants are begun, with their names. -/
def begunKeys (events : List Event) : List (String × String) := events.filterMap Event.begunKey?

/-- Each event is permitted by the registry that those before it lead to. -/
def Follows (r : Registry) : List Event → Prop
  | [] => True
  | e :: rest => e.Allowed r ∧ Follows (e.apply r) rest

/-- What the definition of a name finished with. -/
def finishedAs? (events : List Event) (name : String) : Option Decl :=
  events.findSome? (Event.declaration? name)

/-- The registry holds what the events say, and for a signature and a path what the first event
about it says. -/
structure Records (r : Registry) (past : List Event) : Prop where
  slots : r.slots = (begunNames past).map fun name => (name, finishedAs? past name)
  once : (begunNames past).Nodup
  begins : ∀ name d, finishedAs? past name = some d → name ∈ begunNames past
  constants : r.constants = begunKeys past
  keys : (r.constants.map (·.1)).Nodup
  aliases : ∀ signature, r.aliases.lookup signature = past.findSome? (Event.aliasOf? signature)
  functions : ∀ path, r.functions.lookup path = past.findSome? (Event.functionAt? path)

variable {r : Registry} {events past more : List Event} {e : Event}

theorem replay_append (r : Registry) (events more : List Event) :
    replay r (events ++ more) = replay (replay r events) more := List.foldl_append ..

theorem follows_append : Follows r (events ++ more) ↔
    Follows r events ∧ Follows (replay r events) more := by
  induction events generalizing r with
  | nil => exact ⟨fun later => ⟨trivial, later⟩, And.right⟩
  | cons e rest ih => exact (and_congr_right fun _ => ih).trans and_assoc.symm

/-! ### One event -/

theorem begunNames_concat (past : List Event) (e : Event) :
    begunNames (past ++ [e]) = begunNames past ++ e.begunName?.toList := by
  rw [begunNames, List.filterMap_append]
  cases e <;> rfl

theorem begunKeys_concat (past : List Event) (e : Event) :
    begunKeys (past ++ [e]) = begunKeys past ++ e.begunKey?.toList := by
  rw [begunKeys, List.filterMap_append]
  cases e with
  | begun key name => cases key <;> rfl
  | _ => rfl

theorem findSome?_concat {α : Type} (f : Event → Option α) (past : List Event) (e : Event) :
    (past ++ [e]).findSome? f = (past.findSome? f).or (f e) := by
  rw [List.findSome?_append, List.findSome?_singleton]

theorem nodup_concat {α : Type} {l : List α} {a : α} (distinct : l.Nodup) (fresh : a ∉ l) :
    (l ++ [a]).Nodup := by
  rw [← List.concat_eq_append]
  exact distinct.concat fresh

namespace Records

theorem names (records : r.Records past) : r.slots.map (·.1) = begunNames past := by
  rw [records.slots, List.map_map]
  exact List.map_id _

theorem isDeclared (records : r.Records past) {name : String} :
    r.isDeclared name = true ↔ name ∈ begunNames past := by
  rw [isDeclared_iff, records.names]

/-- A name that is begun is new. -/
theorem fresh (records : r.Records past) {key : Option String} {name : String}
    (allowed : (Event.begun key name).Allowed r) : name ∉ begunNames past := by
  rw [← records.isDeclared, allowed.1]
  exact Bool.false_ne_true

/-- An open slot is one whose definition has not finished. -/
theorem unfinished (records : r.Records past) {name : String} (isOpen : (name, none) ∈ r.slots) :
    name ∈ begunNames past ∧ finishedAs? past name = none := by
  rw [records.slots] at isOpen
  obtain ⟨other, begun, same⟩ := List.mem_map.mp isOpen
  obtain ⟨rfl, none⟩ := Prod.mk.inj same
  exact ⟨begun, none⟩

/-- Before it is begun, a definition has not finished. -/
theorem unmade (records : r.Records past) {name : String} (fresh : name ∉ begunNames past) :
    finishedAs? past name = none := by
  by_contra made
  obtain ⟨d, finished⟩ := Option.ne_none_iff_exists'.mp made
  exact fresh (records.begins name d finished)

end Records

theorem slots_begun (r : Registry) (key : Option String) (name : String) :
    ((Event.begun key name).apply r).slots = r.slots ++ [(name, none)] := by
  cases key <;> rfl

theorem constants_begun (r : Registry) (key : Option String) (name : String) :
    ((Event.begun key name).apply r).constants =
      r.constants ++ (Event.begun key name).begunKey?.toList := by
  cases key with
  | none => exact (List.append_nil _).symm
  | some key => rfl

theorem slots_addAlias (r : Registry) (signature name : String) :
    (r.addAlias signature name).2.slots = r.slots := by
  unfold addAlias
  split <;> rfl

theorem constants_addAlias (r : Registry) (signature name : String) :
    (r.addAlias signature name).2.constants = r.constants := by
  unfold addAlias
  split <;> rfl

/-- An entry that is added behind the others counts for a key that has none. -/
theorem lookup_concat {α : Type} (entries : List (String × α)) (other : String) (a : α)
    (key : String) : (entries ++ [(other, a)]).lookup key =
      (entries.lookup key).or (if other = key then some a else none) := by
  rw [lookup_append, List.lookup_cons]
  by_cases same : key = other
  · simp [same]
  · simp [beq_eq_false_iff_ne.mpr same, Ne.symm same]

/-- For a signature the first name counts. -/
theorem lookup_addAlias (r : Registry) (other name signature : String) :
    (r.addAlias other name).2.aliases.lookup signature =
      (r.aliases.lookup signature).or (if other = signature then some name else none) := by
  unfold addAlias
  split
  case h_1 existing known =>
    by_cases same : other = signature
    · rw [← same, known, Option.some_or]
    · rw [if_neg same, Option.or_none]
  case h_2 => exact lookup_concat _ _ _ _

/-- For a path the first function counts. -/
theorem lookup_addFunction (r : Registry) (other : String) (f : HostFunction) (path : String) :
    (r.addFunction other f).functions.lookup path =
      (r.functions.lookup path).or (if other = path then some f else none) := by
  unfold addFunction
  split
  case h_1 existing known =>
    by_cases same : other = path
    · rw [← same, known, Option.some_or]
    · rw [if_neg same, Option.or_none]
  case h_2 => exact lookup_concat _ _ _ _

theorem slots_addFunction (r : Registry) (path : String) (f : HostFunction) :
    (r.addFunction path f).slots = r.slots := by
  unfold addFunction
  split <;> rfl

theorem constants_addFunction (r : Registry) (path : String) (f : HostFunction) :
    (r.addFunction path f).constants = r.constants := by
  unfold addFunction
  split <;> rfl

namespace Records

theorem slots_concat (records : r.Records past) (allowed : e.Allowed r) : (e.apply r).slots =
    (begunNames (past ++ [e])).map fun name => (name, finishedAs? (past ++ [e]) name) := by
  simp only [finishedAs?, findSome?_concat, begunNames_concat, List.map_append]
  cases e with
  | begun key name =>
    have unmade : past.findSome? (Event.declaration? name) = none :=
      records.unmade (records.fresh allowed)
    simp [slots_begun, records.slots, Event.declaration?, Event.begunName?, finishedAs?, unmade]
  | finished name d =>
    -- The slot is open, so no earlier event about the name says otherwise.
    obtain ⟨-, unmade⟩ := records.unfinished allowed
    simp only [Event.apply, fill, records.slots, List.map_map, Event.begunName?, Option.toList_none,
      List.map_nil, List.append_nil]
    refine List.map_congr_left fun other _ => ?_
    by_cases same : other = name
    · subst same
      simp [Event.declaration?, show past.findSome? _ = none from unmade]
    · simp [Event.declaration?, same, Ne.symm same, finishedAs?]
  | failed name =>
    simp [Event.apply, Event.begunName?, Event.declaration?, records.slots, finishedAs?]
  | named signature name =>
    simp [Event.apply, slots_addAlias, Event.begunName?, Event.declaration?, records.slots,
      finishedAs?]
  | provided path f =>
    simp [Event.apply, slots_addFunction, Event.begunName?, Event.declaration?, records.slots,
      finishedAs?]

theorem once_concat (records : r.Records past) (allowed : e.Allowed r) :
    (begunNames (past ++ [e])).Nodup := by
  rw [begunNames_concat]
  cases e with
  | begun key name => exact nodup_concat records.once (records.fresh allowed)
  | _ => exact (List.append_nil _).symm ▸ records.once

theorem begins_concat (records : r.Records past) (allowed : e.Allowed r) (name : String) (d : Decl)
    (finished : finishedAs? (past ++ [e]) name = some d) : name ∈ begunNames (past ++ [e]) := by
  rw [begunNames_concat]
  refine List.mem_append_left _ ?_
  rw [finishedAs?, findSome?_concat] at finished
  cases e with
  | finished other d' =>
    by_cases same : other = name
    · subst same
      exact (records.unfinished allowed).1
    · rw [Event.declaration?, if_neg same, Option.or_none] at finished
      exact records.begins name d finished
  | _ =>
    simp only [Event.declaration?, Option.or_none] at finished
    exact records.begins name d finished

theorem constants_concat (records : r.Records past) :
    (e.apply r).constants = begunKeys (past ++ [e]) := by
  rw [begunKeys_concat, ← records.constants]
  cases e with
  | begun key name => exact constants_begun r key name
  | finished | failed => exact (List.append_nil _).symm
  | named signature name =>
    exact (constants_addAlias r signature name).trans (List.append_nil _).symm
  | provided path f => exact (constants_addFunction r path f).trans (List.append_nil _).symm

theorem keys_concat (records : r.Records past) (allowed : e.Allowed r) :
    ((e.apply r).constants.map (·.1)).Nodup := by
  rw [records.constants_concat, begunKeys_concat, ← records.constants, List.map_append]
  cases e with
  | begun key name =>
    cases key with
    | none => exact (List.append_nil _).symm ▸ records.keys
    | some key =>
      refine nodup_concat records.keys fun known => ?_
      obtain ⟨entry, member, same⟩ := List.mem_map.mp known
      have free := List.lookup_eq_none_iff.mp (allowed.2 key rfl) entry member
      exact absurd same.symm (by simpa using free)
  | _ => exact (List.append_nil _).symm ▸ records.keys

theorem aliases_concat (records : r.Records past) (signature : String) :
    (e.apply r).aliases.lookup signature =
      (past ++ [e]).findSome? (Event.aliasOf? signature) := by
  rw [findSome?_concat, ← records.aliases]
  cases e with
  | begun key name => cases key <;> exact Option.or_none.symm
  | named other name => exact lookup_addAlias r other name signature
  | provided path f =>
    refine Eq.trans ?_ Option.or_none.symm
    rw [Event.apply, addFunction]
    split <;> rfl
  | _ => exact Option.or_none.symm

theorem functions_concat (records : r.Records past) (path : String) :
    (e.apply r).functions.lookup path = (past ++ [e]).findSome? (Event.functionAt? path) := by
  rw [findSome?_concat, ← records.functions]
  cases e with
  | begun key name => cases key <;> exact Option.or_none.symm
  | named signature name =>
    refine Eq.trans ?_ Option.or_none.symm
    rw [Event.apply, addAlias]
    split <;> rfl
  | provided other f => exact lookup_addFunction r other f path
  | _ => exact Option.or_none.symm

/-- After an event that is allowed, the registry records it too. -/
theorem concat (records : r.Records past) (allowed : e.Allowed r) :
    (e.apply r).Records (past ++ [e]) where
  slots := records.slots_concat allowed
  once := records.once_concat allowed
  begins := records.begins_concat allowed
  constants := records.constants_concat
  keys := records.keys_concat allowed
  aliases := records.aliases_concat
  functions := records.functions_concat

/-- After events that are allowed, the registry records all of them. -/
theorem replay (records : r.Records past) (follows : Follows r events) :
    (replay r events).Records (past ++ events) := by
  induction events generalizing r past with
  | nil =>
    rw [List.append_nil]
    exact records
  | cons e rest ih =>
    rw [List.append_cons]
    exact ih (records.concat follows.1) follows.2

end Records

theorem records_empty : Records {} [] where
  slots := rfl
  once := List.nodup_nil
  begins _ _ finished := nomatch finished
  constants := rfl
  keys := List.nodup_nil
  aliases _ := rfl
  functions _ := rfl

/-! ### What the records mean -/

/-- Nothing of the first registry is lost or changed in the second. -/
structure Persists (r r' : Registry) : Prop where
  names : r.slots.map (·.1) <+: r'.slots.map (·.1)
  constants : r.Keeps r'
  aliases : ∀ signature name,
    r.aliases.lookup signature = some name → r'.aliases.lookup signature = some name
  functions : ∀ path f, r.functions.lookup path = some f → r'.functions.lookup path = some f

namespace Records

/-- No two slots have the same name. -/
theorem distinct (records : r.Records past) : (r.slots.map (·.1)).Nodup := by
  rw [records.names]
  exact records.once

/-- A constant has a slot of its own. -/
theorem constantNames (records : r.Records past) : (r.constants.map (·.2)).Nodup := by
  rw [records.constants]
  -- Every constant that is begun is a name that is begun.
  refine records.once.sublist ?_
  clear records
  induction past with
  | nil => exact List.Sublist.refl _
  | cons e rest ih =>
    cases e with
    | begun key name =>
      cases key with
      | none => exact ih.cons name
      | some key => exact ih.cons_cons name
    | _ => exact ih

/-- The finished declarations are in the order in which they were begun. -/
theorem finished (records : r.Records past) :
    r.finished = (begunNames past).filterMap (finishedAs? past) := by
  rw [Registry.finished, records.slots, List.filterMap_map]
  rfl

/-- What a registry records, it still records after further events. -/
theorem persists {r' : Registry} (records : r.Records past) (later : r'.Records (past ++ more)) :
    r.Persists r' where
  names := by
    rw [records.names, later.names]
    unfold begunNames
    rw [List.filterMap_append]
    exact List.prefix_append _ _
  constants key name known := by
    rw [later.constants, begunKeys, List.filterMap_append, lookup_append]
    rw [records.constants, begunKeys] at known
    rw [known, Option.some_or]
  aliases signature name known := by
    rw [later.aliases, List.findSome?_append, ← records.aliases, known, Option.some_or]
  functions path f known := by
    rw [later.functions, List.findSome?_append, ← records.functions, known, Option.some_or]

end Records

end WireSchema.Registry
