import WireSchema.Proofs.Session.Events

/-!
# Nested registrations

A script is a finite run of registrations. Each definition of a script is a script again, which
works on the same registry while its own slot is still open, and may fail; what comes after it sees
whether it did. The events of a script are allowed, so a registry that starts empty records them at
every moment of the run.

## Main results

* `Script.start_run`: what a script does is told by its events.
* `registrations_are_recorded`: at every moment of a run the registry records the events so far.
-/

namespace WireSchema.Registry

open Ir

/-- A run of registrations. -/
inductive Script where
  | done (result : Except SchemaError Decl)
  | global (name : String) (define : Script) (next : Except SchemaError String → Script)
  | constant (key desired : String) (define : String → Script)
      (next : Except SchemaError String → Script)
  | «alias» (signature name : String) (next : String → Script)
  | function (path : String) (f : HostFunction) (next : Script)
  | look (next : Registry → Script)

namespace Script

/-- The result of a computation, also when it fails. -/
def attempt {α : Type} (act : Gen α) : Gen (Except SchemaError α) := ExceptT.lift act.run

/-- Adds a name to the hints, of which registrations take no notice. -/
def note (name : String) : Gen Unit :=
  Gen.updateDraft fun d => { d with hints := name :: d.hints }

/-- Runs a script. Each definition that is run notes the name it is run for. -/
def run : Script → Gen Decl
  | done result => Gen.ofExcept result
  | global name define next => do
    let out ← attempt (Gen.registerGlobal name (do note name; run define))
    run (next out)
  | constant key desired define next => do
    let out ← attempt <| Gen.registerConstant key desired fun name => do
      note name
      run (define name)
    run (next out)
  | «alias» signature name next => do run (next (← Gen.registerAlias signature name))
  | function path f next => do
    Gen.registerFunction path f
    run next
  | look next => do run (next (← Gen.registry))

/-- What a script results in, and the events that it makes. -/
abbrev Outcome := Except SchemaError Decl × List Event

/-- The outcome with events before it. -/
def Outcome.after (events : List Event) (later : Outcome) : Outcome := (later.1, events ++ later.2)

/-- How the definition of a name ends. -/
def closing (name : String) : Except SchemaError Decl → Event
  | .ok d => .finished name d
  | .error _ => .failed name

/-- The events of a definition from its beginning to its end. -/
def declaring (key : Option String) (name : String) (inner : Outcome) : List Event :=
  .begun key name :: (inner.2 ++ [closing name inner.1])

/-- What a script does from a registry on. -/
def trace : Script → Registry → Outcome
  | done result, _ => (result, [])
  | global name define next, r =>
    if r.isDeclared name then trace (next (.ok name)) r
    else
      let inner := trace define ((Event.begun none name).apply r)
      let events := declaring none name inner
      (trace (next (inner.1.map fun _ => name)) (replay r events)).after events
  | constant key desired define next, r =>
    match r.constants.lookup key with
    | some name => trace (next (.ok name)) r
    | none =>
      let name := r.freeName desired
      let inner := trace (define name) ((Event.begun (some key) name).apply r)
      let events := declaring (some key) name inner
      (trace (next (inner.1.map fun _ => name)) (replay r events)).after events
  | «alias» signature name next, r =>
    let (found, r) := r.addAlias signature name
    (trace (next found) r).after [.named signature name]
  | function path f next, r => (trace next (r.addFunction path f)).after [.provided path f]
  | look next, r => trace (next r) r

/-! ### Scripts do what their events say -/

variable {events : List Event} {s : Session}

/-- The session with the events told to its registry, and the names that were begun noted. -/
def told (events : List Event) (s : Session) : Session :=
  { s with
    registry := replay s.registry events
    draft := { s.draft with hints := (begunNames events).reverse ++ s.draft.hints } }

theorem told_append (events more : List Event) (s : Session) :
    told (events ++ more) s = told more (told events s) := by
  simp only [told, replay_append, begunNames, List.filterMap_append, List.reverse_append,
    List.append_assoc]

/-- A computation does what the outcome says. -/
def Does {α : Type} (act : Gen α) (s : Session) (result : Except SchemaError α)
    (events : List Event) : Prop := act.start s = (result, told events s)

/-- What comes after a computation sees its result. -/
theorem does_attempt {α : Type} {act : Gen α} {next : Except SchemaError α → Gen Decl}
    {result : Except SchemaError α} {out : Outcome} (first : Does act s result events)
    (later : Does (next result) (told events s) out.1 out.2) :
    Does (do next (← attempt act)) s (out.after events).1 (out.after events).2 := by
  have tried : (attempt act).start s = (.ok (act.start s).1, (act.start s).2) := rfl
  rw [Does] at first
  rw [Does, Gen.start_bind, tried, first, Outcome.after, told_append]
  exact later

/-- A definition that is begun for a new name, with the note of it. -/
theorem does_declaring (key : Option String) {name : String} {define : Gen Decl} {inner : Outcome}
    (defines : Does define (told [.begun key name] s) inner.1 inner.2) :
    Does (do
      Gen.updateRegistry fun r => (Event.begun key name).apply r
      let d ← note name *> define
      Gen.updateRegistry (·.fill name d)
      return name) s (inner.1.map fun _ => name) (declaring key name inner) := by
  have begun : Gen.start (note name *> define)
      { s with registry := (Event.begun key name).apply s.registry } =
        (inner.1, told inner.2 (told [.begun key name] s)) := defines
  obtain ⟨result, events⟩ := inner
  have ends : told (declaring key name (result, events)) s =
      told [closing name result] (told events (told [.begun key name] s)) := by
    rw [← told_append, ← told_append]
    rfl
  rw [Does, ends, Gen.start_bind]
  change Gen.start _ { s with registry := (Event.begun key name).apply s.registry } = _
  rw [Gen.start_bind, begun]
  cases result <;> rfl

theorem start_registry (s : Session) : Gen.registry.start s = (.ok s.registry, s) := rfl

/-- A name that is known is not defined again, whatever the definition. -/
theorem does_knownGlobal {name : String} (known : s.registry.isDeclared name = true)
    (define : Gen Decl) : Does (Gen.registerGlobal name define) s (.ok name) [] := by
  simp only [Does, Gen.registerGlobal, Gen.start_bind, start_registry, if_pos known]
  rfl

theorem does_newGlobal {name : String} (new : s.registry.isDeclared name ≠ true)
    {define : Gen Decl} {inner : Outcome}
    (defines : Does define (told [.begun none name] s) inner.1 inner.2) :
    Does (Gen.registerGlobal name (note name *> define)) s (inner.1.map fun _ => name)
      (declaring none name inner) := by
  rw [Does, Gen.registerGlobal, Gen.start_bind, start_registry]
  simp only [if_neg new]
  exact does_declaring none defines

/-- A key that is known is not defined again, whatever the definition. -/
theorem does_knownConstant {key name : String} (known : s.registry.constants.lookup key = some name)
    (desired : String) (define : String → Gen Decl) :
    Does (Gen.registerConstant key desired define) s (.ok name) [] := by
  simp only [Does, Gen.registerConstant, Gen.start_bind, start_registry, known]
  rfl

theorem does_newConstant {key : String} (new : s.registry.constants.lookup key = none)
    {desired : String} {define : String → Gen Decl} {inner : Outcome}
    (defines : Does (define (s.registry.freeName desired))
      (told [.begun (some key) (s.registry.freeName desired)] s) inner.1 inner.2) :
    Does (Gen.registerConstant key desired fun name => note name *> define name) s
      (inner.1.map fun _ => s.registry.freeName desired)
      (declaring (some key) (s.registry.freeName desired) inner) := by
  rw [Does, Gen.registerConstant, Gen.start_bind, start_registry]
  simp only [new]
  rw [Gen.start_bind, start_registry]
  exact does_declaring (some key) defines

/-- What a script does is told by its events. -/
theorem start_run (script : Script) (s : Session) :
    Does script.run s (script.trace s.registry).1 (script.trace s.registry).2 := by
  -- The definition and what comes after it are scripts below, run on sessions of their own.
  induction script generalizing s with
  | done result => cases result <;> rfl
  | global name define next defines later =>
    rw [run, trace]
    split
    case isTrue known => exact does_attempt (does_knownGlobal known _) (later _ s)
    case isFalse new => exact does_attempt (does_newGlobal new (defines _)) (later _ _)
  | constant key desired define next defines later =>
    rw [run, trace]
    split
    case h_1 name known => exact does_attempt (does_knownConstant known desired _) (later _ s)
    case h_2 new => exact does_attempt (does_newConstant new (defines _ _)) (later _ _)
  | «alias» signature name next later => exact later _ (told [.named signature name] s)
  | function path f next later => exact later (told [.provided path f] s)
  | look next later => exact later s.registry s

end Script

/-! ### The events of a script are allowed -/

variable {r : Registry} {events more past : List Event} {key : Option String} {name : String}

/-- The events are allowed from the registry on, and leave the slots that it has as they are. -/
structure Lawful (r : Registry) (events : List Event) : Prop where
  follows : Follows r events
  slots : r.slots <+: (replay r events).slots

theorem lawful_nil (r : Registry) : Lawful r [] := ⟨trivial, List.prefix_refl _⟩

theorem Lawful.append (first : Lawful r events) (second : Lawful (replay r events) more) :
    Lawful r (events ++ more) := by
  refine ⟨follows_append.mpr ⟨first.follows, second.follows⟩, ?_⟩
  rw [replay_append]
  exact first.slots.trans second.slots

/-- A slot is filled in; the slots before it are as they were. -/
theorem prefix_fill {slots : List (String × Option Decl)} (fresh : name ∉ slots.map (·.1))
    (kept : slots <+: r.slots) (d : Decl) : slots <+: (r.fill name d).slots := by
  obtain ⟨others, same⟩ := kept
  rw [fill, ← same, List.map_append]
  refine ⟨_, congrArg (· ++ List.map _ others) ?_⟩
  refine (List.map_id _).symm.trans (List.map_congr_left fun slot member => ?_)
  have other : slot.1 ≠ name := fun same => fresh (same ▸ List.mem_map_of_mem member)
  simp [other]

/-- A definition that is begun for a new name and a new key is closed on its own slot: the slots
that are open around it stay open. -/
theorem lawful_declaring (begins : (Event.begun key name).Allowed r) {inner : Script.Outcome}
    (lawful : Lawful ((Event.begun key name).apply r) inner.2) :
    Lawful r (Script.declaring key name inner) := by
  -- Nothing within touches the slots around it, its own among them.
  have kept : r.slots ++ [(name, none)] <+:
      (replay ((Event.begun key name).apply r) inner.2).slots :=
    slots_begun r key name ▸ lawful.slots
  have isOpen : (name, none) ∈ (replay ((Event.begun key name).apply r) inner.2).slots :=
    kept.subset (List.mem_append_right _ List.mem_cons_self)
  have before : r.slots <+: (replay ((Event.begun key name).apply r) inner.2).slots :=
    (List.prefix_append _ _).trans kept
  refine ⟨⟨begins, follows_append.mpr ⟨lawful.follows, ?_, trivial⟩⟩, ?_⟩
  · cases inner.1 <;> exact isOpen
  · rw [Script.declaring, ← List.singleton_append, replay_append, replay_append]
    have fresh : name ∉ r.slots.map (·.1) := by
      rw [← isDeclared_iff, begins.1]
      exact Bool.false_ne_true
    -- A failure leaves the slot open.
    cases inner.1 with
    | ok d => exact prefix_fill fresh before d
    | error e => exact before

theorem lawful_named (r : Registry) (signature name : String) :
    Lawful r [.named signature name] := by
  refine ⟨⟨trivial, trivial⟩, [], ?_⟩
  exact (List.append_nil _).trans (slots_addAlias r signature name).symm

theorem lawful_provided (r : Registry) (path : String) (f : HostFunction) :
    Lawful r [.provided path f] := by
  refine ⟨⟨trivial, trivial⟩, [], ?_⟩
  exact (List.append_nil _).trans (slots_addFunction r path f).symm

/-- All that a script makes happen is allowed. -/
theorem Script.lawful (script : Script) (r : Registry) : Lawful r (script.trace r).2 := by
  induction script generalizing r with
  | done result => exact lawful_nil r
  | global name define next defines later =>
    rw [trace]
    split
    case isTrue known => exact later _ r
    case isFalse new =>
      have begins : (Event.begun none name).Allowed r := ⟨by simpa using new, nofun⟩
      exact (lawful_declaring begins (defines _)).append (later _ _)
  | constant key desired define next defines later =>
    rw [trace]
    split
    case h_1 name known => exact later _ r
    case h_2 new =>
      have begins : (Event.begun (some key) (r.freeName desired)).Allowed r := by
        refine ⟨freeName_free r desired, fun k same => ?_⟩
        cases same
        exact new
      exact (lawful_declaring begins (defines _ _)).append (later _ _)
  | «alias» signature name next later => exact (lawful_named r signature name).append (later _ _)
  | function path f next later => exact (lawful_provided r path f).append (later _)
  | look next later => exact later r r

/-! ### Every moment of a run -/

/-- From an empty registry on, a registry that the events of a script lead to records them. -/
theorem Script.records (script : Script) (moment : past <+: (script.trace {}).2) :
    (replay {} past).Records past := by
  obtain ⟨rest, whole⟩ := moment
  have follows := (script.lawful {}).follows
  rw [← whole] at follows
  exact records_empty.replay (follows_append.mp follows).1

/-- What happens next is permitted by the registry of the moment. -/
theorem Script.allowed (script : Script) {e : Event}
    (moment : past ++ [e] <+: (script.trace {}).2) : e.Allowed (replay {} past) := by
  obtain ⟨rest, whole⟩ := moment
  have follows := (script.lawful {}).follows
  rw [← whole, List.append_assoc] at follows
  exact (follows_append.mp follows).2.1

/-- A script that is run on an empty registry does what its events say, and notes the names whose
definitions it runs. At every moment of the run,

* the registry records the events so far, so that for a signature and a path the first registration
  counts;
* each name has a single slot, and different constants have different names;
* the finished declarations are those whose definitions succeeded, in the order of the reservations;
* a definition that is run next has a name and a key that are neither registered nor in progress;
* what the registry says is still said at every later moment.
-/
theorem registrations_are_recorded (script : Script) (s : Session) :
    let start : Session := { s with registry := {} }
    let events := (script.trace {}).2
    script.run.start start = ((script.trace {}).1, Script.told events start) ∧
      ∀ past, past <+: events →
        (replay {} past).Records past ∧
        ((replay {} past).slots.map (·.1)).Nodup ∧
        ((replay {} past).constants.map (·.2)).Nodup ∧
        (replay {} past).finished = (begunNames past).filterMap (finishedAs? past) ∧
        (∀ key name, past ++ [.begun key name] <+: events →
          (replay {} past).isDeclared name = false ∧
            ∀ k, key = some k → (replay {} past).constants.lookup k = none) ∧
        ∀ later, past <+: later → later <+: events →
          (replay {} past).Persists (replay {} later) := by
  intro start events
  refine ⟨script.start_run start, fun past moment => ?_⟩
  have records := script.records moment
  refine ⟨records, records.distinct, records.constantNames, records.finished, ?_, ?_⟩
  · exact fun key name next => script.allowed next
  · rintro later ⟨between, rfl⟩ moment'
    exact records.persists (script.records moment')

/-- The definition of `A` registers a constant that would like the same name, whose definition asks
for `A` in turn; then it fails. -/
def clashing : Script :=
  .global "A"
    (.constant "key" "A"
      (fun name => .global "A" (.done (.error .tooDeep)) fun _ =>
        .done (.ok (.alias name (.prim .u8))))
      fun _ => .done (.error .tooDeep))
    fun _ => .done (.error .tooDeep)

/-- The slot of `A` stays open, and the constant is declared under another name. -/
theorem registrations_are_recorded_clashing :
    let events := (clashing.trace {}).2
    begunNames events = ["A", "A2"] ∧
      (replay {} events).finished = [.alias "A2" (.prim .u8)] := by
  refine ⟨by rfl, ?_⟩
  have moment := (registrations_are_recorded clashing {}).2 _ (List.prefix_refl _)
  rw [moment.2.2.2.1]
  rfl

end WireSchema.Registry
