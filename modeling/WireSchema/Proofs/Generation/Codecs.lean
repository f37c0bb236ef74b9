import WireSchema.Proofs.Elision.Meaning
import WireSchema.Proofs.Generation.Functions
import WireSchema.Proofs.Generation.Termination
import WireSchema.Proofs.Generation.Twins
import WireSchema.Proofs.Machine.Locality

/-!
# Codecs of exported types

Every exported type has one codec, and the codec reads what the layout reads of the type it stands
for. A codec calls codecs of lower rank only, so the proof goes up with the rank, within the depth of
calls that a program allows.
-/

namespace WireSchema

open Ir Wire Lowering Decoding

/-! ### Each exported type has one codec -/

/-- The codecs among the declarations. -/
def Generated.codecs (g : Generated) : List CodecDecl :=
  g.types.filterMap fun d => match d with
    | .codec c => some c
    | _ => none

namespace Registry.Complete

variable {hooks : Hooks} {types : Refs} {rank : String → Nat} {r : Registry} {g : Generated}

theorem mem_codecs (same : g.types = r.finished) {c : CodecDecl} :
    c ∈ g.codecs ↔ ∃ slot, (slot, some (.codec c)) ∈ r.slots := by
  rw [← mem_finished, ← same, Generated.codecs, List.mem_filterMap]
  constructor
  · rintro ⟨d, member, is⟩
    cases d with
    | codec c' =>
      cases is
      exact member
    | _ => cases is
  · exact fun member => ⟨_, member, rfl⟩

/-- A codec is in the slot of its reader. -/
theorem slot_of_codec (complete : r.Complete hooks types) {slot : String} {c : CodecDecl}
    (member : (slot, some (.codec c)) ∈ r.slots) : slot = readerName c.name ∧
      ∃ name inner, (name, .exported name inner) ∈ types ∧ Makes hooks types r name inner c := by
  obtain ⟨name, inner, exported, named, makes⟩ := complete.sound.fits slot _ member
  rw [makes.base]
  exact ⟨named, name, inner, exported, makes⟩

/-- No two codecs have one name. -/
theorem nodup_codecs (complete : r.Complete hooks types) (same : g.types = r.finished) :
    (g.codecs.map (·.name)).Nodup := by
  have apart : r.slots.Pairwise fun a b => ∀ c c', a.2 = some (.codec c) → b.2 = some (.codec c') →
      c.name ≠ c'.name := by
    refine (List.pairwise_map.mp complete.sound.nodup).imp_of_mem ?_
    rintro ⟨slot, _⟩ ⟨slot', _⟩ member member' different c c' rfl rfl named
    refine different ?_
    change slot = slot'
    rw [(complete.slot_of_codec member).1, (complete.slot_of_codec member').1, named]
  rw [Generated.codecs, same, Registry.finished, List.filterMap_filterMap]
  refine List.pairwise_map.mpr (apart.filterMap _ ?_)
  rintro ⟨slot, o⟩ ⟨slot', o'⟩ different c found c' found'
  obtain ⟨d, rfl, is⟩ := Option.bind_eq_some_iff.mp found
  obtain ⟨d', rfl, is'⟩ := Option.bind_eq_some_iff.mp found'
  cases d with
  | codec =>
    cases d' with
    | codec =>
      cases is
      cases is'
      exact different _ _ rfl rfl
    | _ => cases is'
  | _ => cases is

end Registry.Complete

/-- Every exported type has one codec, under its base name, and what the codec does is generated from
what the type stands for. There are no other codecs. -/
structure Schema.HasItsCodecs (hooks : Hooks) (s : Schema) (g : Generated) : Prop where
  distinct : (g.codecs.map (·.name)).Nodup
  exported : ∀ c ∈ g.codecs, ∃ name inner, (name, .exported name inner) ∈ s.refs ∧
    c.name = codecBase name
  made : ∀ name inner, (name, .exported name inner) ∈ s.refs →
    ∃ c ∈ g.codecs, g.codec? (codecBase name) = some c ∧
      ∃ r, r.finished = g.types ∧ Registry.Makes hooks s.refs r name inner c

open Source in
/-- In the code of a text every exported type has its own codec, unless the names of codecs clash
with each other or with the names of types. -/
theorem Schema.exported_types_have_their_codecs {firstGroup : Nat} {text : String} {s : Schema}
    (accepted : parseFrom firstGroup text = .ok s) {hooks : Hooks} {g : Generated}
    (ran : s.generate hooks = .ok g) (separate : s.refs.Separate) : s.HasItsCodecs hooks g := by
  unfold parseFrom at accepted
  split at accepted
  · next items parsed =>
    obtain ⟨rank, wf⟩ := wellFormed_of_schemaOf (idents_of_parseAll parsed) accepted
    obtain ⟨protocols, τ, units, finished, _, _⟩ := generate_ok ran
    have complete := complete_generateUnits wf separate units
    refine ⟨complete.nodup_codecs finished, fun c member => ?_, fun name inner member => ?_⟩
    · obtain ⟨slot, inSlots⟩ := (Registry.Complete.mem_codecs finished).mp member
      obtain ⟨_, name, inner, exported, makes⟩ := complete.slot_of_codec inSlots
      exact ⟨name, inner, exported, makes.base⟩
    · obtain ⟨c, found, makes⟩ := complete.codec wf.ordered separate finished member
      refine ⟨c, ?_, found, τ.registry, finished.symm, makes⟩
      obtain ⟨d, among, is⟩ := List.exists_of_findSome?_eq_some found
      refine List.mem_filterMap.mpr ⟨d, among, ?_⟩
      cases d with
      | codec c' =>
        dsimp only at is ⊢
        split at is
        · exact is
        · cases is
      | _ => cases is
  · cases accepted

/-! ### Calls of codecs -/

/-- A codec runs on bindings of its own. -/
theorem Probe.mirrors_decodeWith {p : Program} {codec : String} {d : CodecDecl} {read : Read Value}
    (found : p.code.codec? codec = some d)
    (body : ∀ m reader, m.stream = .input reader →
      Mirrors (evalBlock p d.decode m) (read.run reader) fun v w _ => v = w)
    {m : Machine} {reader : Reader} (stream : m.stream = .input reader) :
    Mirrors (effect (Calls.decodeWith p codec) m) (read.run reader) fun v w _ => v = w := by
  let start : Machine := { m with env := [], events := .enterDecoder codec :: m.events }
  have called : Calls.decodeWith p codec m = (Run.evalBlock p d.decode start).map fun out =>
      (out.1, { out.2 with env := m.env }) := by
    rw [Calls.decodeWith, found]
    rfl
  have mirrors := body start reader stream
  rw [effect, marked, called, ← unmarked_evalBlock, unmarked]
  cases expected : read.run reader with
  | mk result reader' =>
    rw [expected] at mirrors
    cases result with
    | error e =>
      obtain ⟨cause, ran, same⟩ := mirrors
      rw [ran]
      exact ⟨cause, rfl, same⟩
    | ok v =>
      obtain ⟨w, m', ran, stream', same⟩ := mirrors
      rw [ran]
      exact ⟨w, _, rfl, stream', same⟩

/-- A codec writes with a parameter of its own. -/
theorem Run.writes_encodeWith {p : Program} {codec : String} {d : CodecDecl} {v : Value}
    {bytes : List UInt8} (found : p.code.codec? codec = some d)
    (body : Stmt.Sends p (fun env => env.get? d.value.id = some v) d.encode bytes)
    {m : Machine} {latest : List UInt8} (stream : m.stream = .output latest) :
    ∃ m', Calls.encodeWith p codec v m = .ok ((), m') ∧
      m'.stream = .output (bytes.reverse ++ latest) := by
  let start : Machine :=
    { m with env := .single d.value.id v, events := .enterEncoder codec v :: m.events }
  have held : start.env.get? d.value.id = some v := (Env.get?_set _ _ _ _).trans (if_pos rfl)
  obtain ⟨m', ran, stream'⟩ := body start latest held stream
  have called : Calls.encodeWith p codec v m = (Run.execBlock p d.encode start).map fun out =>
      (out.1, { out.2 with env := m.env }) := by
    rw [Calls.encodeWith, found]
    rfl
  rw [called, ran]
  exact ⟨_, rfl, stream'⟩

/-- The code that generation makes of the types of a scene, and the registry that it was left in. -/
structure Decoding.Scene.Generates (S : Scene) (r : Registry) (g : Generated) : Prop where
  complete : r.Complete S.hooks S.types
  finished : g.types = r.finished
  narrow : ∀ name inner, (name, .exported name inner) ∈ S.types → inner.Narrow S.types

namespace Decoding.Scene

variable {S : Scene} {r : Registry} {g : Generated}

/-- The types below a rank. -/
abbrev below (S : Scene) (bound : Nat) : Scene := { S with bound }

/-- The codec of an exported type is made of what it stands for: it decodes and encodes that, and
tells its values apart if the codecs that it calls do. -/
structure IsCodec (S : Scene) (r : Registry) (inner : Shape) (c : CodecDecl) : Prop where
  decoder : S.IsDecoder r inner c.decode
  encoder : S.IsEncoder r inner c.value c.encode
  told : S.TellsExports → inner.IsTold S.types

theorem Generates.codec (generates : S.Generates r g) {name : String} {inner : Shape}
    (member : (name, .exported name inner) ∈ S.types) : ∃ c, g.codec? (codecBase name) = some c ∧
      (S.below (S.rank name)).IsCodec r inner c := by
  obtain ⟨c, found, _, depth, σ, σ₁, σ₂, τ, refs, draft, keeps, decoder, begun, encoder⟩ :=
    generates.complete.codec S.ordered S.separate generates.finished member
  have wf := S.ordered.inner_exported member
  have covers : (S.below (S.rank name)).Covers inner := ⟨wf, generates.narrow name inner member⟩
  -- The decoder is made on the draft of the codec, then the encoder as a function of its own.
  obtain ⟨step, _, _, _, decodes⟩ := ((faithful_emitter (S.below (S.rank name)) depth).decodeExpr
    (γ := []) covers).captureBlock σ c.decode σ₁ decoder refs (by rw [draft]; rfl)
  have writes (x : Local) : (S.below (S.rank name)).Writes []
      ((emitter S.hooks depth).encode inner (.place x)) inner (.place x) :=
    (Encoding.faithful_emitter (S.below (S.rank name)) depth).encode covers
  have function : (S.below (S.rank name)).Leaves (do
      Gen.beginFunction
      let x ← Gen.param "value"
      let out ← Gen.capture ((emitter S.hooks depth).encode inner (.place x))
      return (x, out.1)) fun r out => (S.below (S.rank name)).IsEncoder r inner out.1 out.2 :=
    leaves_encoder Expr.denotes_place writes fun x out => leaves_pure fun r encodes => encodes
  obtain ⟨step', encodes⟩ := function σ₁ (c.value, c.encode) τ
    (by
      rw [seqRight_eq_bind] at begun
      obtain ⟨u, σ', first, second⟩ := Gen.runs_bind.mp begun
      exact Gen.runs_bind.mpr ⟨u, σ', first, Gen.runs_bind.mpr ⟨_, _, second,
        Gen.runs_bind.mpr ⟨_, _, encoder, Gen.runs_pure.mpr ⟨rfl, rfl⟩⟩⟩⟩)
    step.refs
  refine ⟨c, found, ⟨_, _, (decodes r (step'.grows.keeps.trans keeps)).2⟩, encodes r keeps, ?_⟩
  exact fun exports => ((tells_emitter exports depth).decodeExpr inner wf).captureBlock σ c.decode σ₁
    decoder refs

/-- Exported types are told apart, since those of lower rank are. -/
theorem Generates.told (generates : S.Generates r g) {name : String} {inner : Shape}
    (member : (name, .exported name inner) ∈ S.types) : inner.IsTold S.types := by
  induction rank : S.rank name using Nat.strongRecOn generalizing name inner with
  | ind n ih =>
    -- A codec calls codecs of lower rank only.
    obtain ⟨c, _, codec⟩ := generates.codec member
    exact codec.told fun other inner' member' lower => ih _ (rank ▸ lower) member' rfl

/-- A program with the generated code has the enumerations that the registry names. -/
theorem Generates.knows (generates : S.Generates r g) (bound size fuel depth : Nat) :
    (S.below bound).Knows r (g.programAt S.order size fuel depth) where
  isolated := Calls.isolated_nested g S.order size fuel depth
  order := rfl
  enums _ _ _ _ is known :=
    Generated.enumOf_of_decl (generates.complete.decl generates.finished is known)

/-- Exported types of lower rank are on lower levels. -/
theorem level_lt (S : Scene) {name other : String} {inner : Shape}
    (member : (other, .exported other inner) ∈ S.types) (lower : S.rank other < S.rank name) :
    S.types.level S.rank other < S.types.level S.rank name :=
  Refs.level_lt ((Refs.mem_exportedNames S.ordered).mpr ⟨inner, member⟩) lower

/-- Codecs read what the layout reads, if there is room for calls of codecs of lower levels. -/
theorem Generates.mirrors_codec (generates : S.Generates r g) (size fuel : Nat) {depth : Nat}
    {name : String} {inner : Shape} (member : (name, .exported name inner) ∈ S.types)
    (enough : S.types.level S.rank name < fuel)
    (room : depth + S.types.level S.rank name < g.types.length) {m : Machine} {reader : Reader}
    (stream : m.stream = .input reader) :
    Probe.Mirrors
      (Probe.effect ((Calls.nested g S.order size fuel depth).decode (codecBase name)) m)
      ((S.value inner).run reader) fun v w _ => v = w := by
  induction fuel generalizing depth name inner m reader with
  | zero => exact absurd enough (Nat.not_lt_zero _)
  | succ fuel ih =>
    obtain ⟨c, found, ⟨low, high, decodes⟩, _⟩ := generates.codec member
    have shallow : Run.checkDepth g size depth = pure () := Run.checkDepth_eq (by omega) size
    -- Codecs of lower levels are called one deeper, with one less of fuel.
    have serves : (S.below (S.rank name)).Serves r (g.programAt S.order size fuel (depth + 1)) := by
      refine ⟨generates.knows _ size fuel (depth + 1), ?_⟩
      intro other inner' member' lower m' reader' stream'
      have less := S.level_lt member' lower
      exact ih member' (by omega) (by omega) stream'
    simp only [Calls.nested, shallow, pure_bind]
    refine Probe.mirrors_decodeWith (p := g.programAt S.order size fuel (depth + 1)) found ?_ stream
    exact fun m' reader' stream' => decodes.run _ serves m' reader' stream'

/-- Codecs write what the layout says, if there is room for calls of codecs of lower levels. -/
theorem Generates.writes_codec (generates : S.Generates r g) (size fuel : Nat) {depth : Nat}
    {name : String} {inner : Shape} (member : (name, .exported name inner) ∈ S.types)
    (enough : S.types.level S.rank name < fuel)
    (room : depth + S.types.level S.rank name < g.types.length) {v : Value} {bytes : List UInt8}
    (written : Layout.Written S.order S.types inner v bytes) {m : Machine} {latest : List UInt8}
    (stream : m.stream = .output latest) :
    ∃ m', (Calls.nested g S.order size fuel depth).encode (codecBase name) v m = .ok ((), m') ∧
      m'.stream = .output (bytes.reverse ++ latest) := by
  induction fuel generalizing depth name inner v bytes m latest with
  | zero => exact absurd enough (Nat.not_lt_zero _)
  | succ fuel ih =>
    obtain ⟨c, found, _, ⟨low, high, encodes⟩, _⟩ := generates.codec member
    have shallow : Run.checkDepth g size depth = pure () := Run.checkDepth_eq (by omega) size
    -- Codecs of lower levels are called one deeper, with one less of fuel.
    have supplies :
        (S.below (S.rank name)).Supplies r (g.programAt S.order size fuel (depth + 1)) := by
      refine ⟨generates.knows _ size fuel (depth + 1), ?_⟩
      intro other inner' member' lower v' bytes' written' m' latest' stream'
      have less := S.level_lt member' lower
      exact ih member' (by omega) (by omega) written' stream'
    simp only [Calls.nested, shallow, pure_bind]
    refine Run.writes_encodeWith (p := g.programAt S.order size fuel (depth + 1)) found ?_ stream
    exact encodes.run _ supplies v bytes written

/-- There is room in a program for calls of all codecs. -/
theorem Generates.room (generates : S.Generates r g) {name : String} {inner : Shape}
    (member : (name, .exported name inner) ∈ S.types) :
    S.types.level S.rank name < g.types.length := by
  have fewer : S.types.exportedNames.card ≤ g.types.length := by
    rw [generates.finished]
    exact generates.complete.card_le S.ordered S.separate fun name inner member => ⟨inner, member⟩
  have among := (Refs.mem_exportedNames S.ordered).mpr ⟨inner, member⟩
  exact Nat.lt_of_lt_of_le (Refs.level_lt_card among) fewer

/-- The program that decodes serves all types. -/
theorem Generates.serves_program (generates : S.Generates r g) (bound length : Nat) :
    (S.below bound).Serves r (g.program S.order 0 length) := by
  have serves (fuel : Nat) (deep : g.types.length < fuel) :
      (S.below bound).Serves r (g.programAt S.order 0 fuel 0) := by
    refine ⟨generates.knows bound 0 fuel 0, fun name inner member _ m reader stream => ?_⟩
    have room := generates.room member
    exact generates.mirrors_codec 0 fuel member (by omega) (by omega) stream
  exact serves _ (g.lt_callDepth (0 + length))

/-- The program that encodes supplies all types. -/
theorem Generates.supplies_program (generates : S.Generates r g) (bound size : Nat) :
    (S.below bound).Supplies r (g.program S.order size 0) := by
  have supplies (fuel : Nat) (deep : g.types.length < fuel) :
      (S.below bound).Supplies r (g.programAt S.order size fuel 0) := by
    refine ⟨generates.knows bound size fuel 0, ?_⟩
    intro name inner member _ v bytes written m latest stream
    have room := generates.room member
    exact generates.writes_codec size fuel member (by omega) (by omega) written stream
  exact supplies _ (g.lt_callDepth (size + 0))

end Decoding.Scene

end WireSchema
