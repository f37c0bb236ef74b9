import WireSchema.Proofs.Elision.Frames
import WireSchema.Proofs.Wire.Locality

/-!
# Decoding is local

A decoder that succeeds takes a piece from the front of the bytes, like the reads it is made of. It
yields the same from all bytes that start with the piece, and it fails for want of bytes on every
beginning of the piece. The two runs may have different limits on the depth of calls, as long as
the second has enough for its bytes: what the calls are checked against is the position.
-/

namespace WireSchema

open Ir

/-! ### Steps that leave the stream alone -/

/-- The step neither looks at the stream nor changes it. -/
def Run.StreamFree {α : Type} (act : Run α) : Prop :=
  ∀ (m : Machine) (stream : Stream),
    act { m with stream } = (act m).map fun out => (out.1, { out.2 with stream })

namespace Run

theorem StreamFree.stream_eq {α : Type} {act : Run α} (free : StreamFree act) {m m' : Machine}
    {a : α} (ran : act m = .ok (a, m')) : m'.stream = m.stream := by
  have same := free m m.stream
  rw [show ({ m with stream := m.stream } : Machine) = m from rfl, ran] at same
  simp only [Except.map, Except.ok.injEq, Prod.mk.injEq, true_and] at same
  rw [same]

theorem Settled.streamFree {α : Type} {act : Run α} (settled : Settled act) : StreamFree act := by
  cases settled <;> exact fun _ _ => rfl

theorem streamFree_valueOf (x : Local) : StreamFree (valueOf x) := by
  intro m stream
  simp only [valueOf, bind_apply, get, getThe, MonadStateOf.get, StateT.get, pure, Except.pure,
    Except.bind]
  cases m.env.get? x.id <;> rfl

theorem streamFree_bind (x : Local) (v : Value) : StreamFree (Run.bind x v) := fun _ _ => rfl

theorem streamFree_note (e : Event) : StreamFree (note e) := fun _ _ => rfl

theorem streamFree_push (x : Local) (v : Value) : StreamFree (push x v) := by
  intro m stream
  simp only [push, bind_apply, get, getThe, MonadStateOf.get, StateT.get, pure, Except.pure,
    Except.bind]
  cases m.env.cell? x.id with
  | none => rfl
  | some c =>
    simp only
    cases c.push v <;> rfl

theorem streamFree_callHost (g : Generated) (path : String) (args : List Value)
    (fallible : Bool) : StreamFree (callHost g path args fallible) := by
  intro m stream
  simp only [callHost]
  cases g.functions.lookup path with
  | none => rfl
  | some f =>
    simp only
    cases f args <;> rfl

end Run

namespace Probe

/-! ### Runs that take a piece from the front -/

/-- On bytes of which `total` are there, the probe takes `used` and yields `a`, ending like `m'`. -/
structure Takes {α : Type} (total : Nat) (act : Probe α) (m : Machine) (position : Nat)
    (used : List UInt8) (a : α) (m' : Machine) : Prop where
  whole : ∀ tail, position + used.length + tail.length = total →
    act { m with stream := .input ⟨used ++ tail, position⟩ } =
      .ok (a, { m' with stream := .input ⟨tail, position + used.length⟩ })
  short : ∀ front, front <+: used → front ≠ used → position + front.length = total →
    act { m with stream := .input ⟨front, position⟩ } = .error ⟨.decode .unexpectedEnd, false⟩

/-- Whenever the first probe succeeds, it takes a piece that the second takes as well. -/
def Follows (total : Nat) : Relation := fun _ x y =>
  ∀ m rest position a m', m.stream = .input ⟨rest, position⟩ → x m = .ok (a, m') →
    ∃ used tail, rest = used ++ tail ∧ m'.stream = .input ⟨tail, position + used.length⟩ ∧
      Takes total y m position used a m'

theorem compatible_follows (total : Nat) : Compatible (Follows total) where
  pure a := by
    intro m rest position b m' stream ran
    cases ran
    refine ⟨[], rest, rfl, stream, fun tail _ => rfl, fun front begins strict => ?_⟩
    exact absurd (List.prefix_nil.mp begins) strict
  fault e := fun _ _ _ _ _ _ ran => nomatch ran
  bind := by
    intro α β x y f g first second m rest position b m₂ stream ran
    rw [bind_apply] at ran
    cases start : x m with
    | error s =>
      rw [start] at ran
      cases ran
    | ok out =>
      obtain ⟨a, m₁⟩ := out
      rw [start] at ran
      obtain ⟨used, tail, rfl, stream₁, takes⟩ := first m rest position a m₁ stream start
      obtain ⟨used', tail', rfl, stream₂, takes'⟩ := second a m₁ _ _ b m₂ stream₁ ran
      refine ⟨used ++ used', tail', by simp, by simp [stream₂, Nat.add_assoc], ?_, ?_⟩
      · intro tail length
        simp only [List.length_append] at length
        rw [bind_apply, List.append_assoc,
          takes.whole (used' ++ tail) (by rw [List.length_append]; omega), List.length_append,
          ← Nat.add_assoc]
        exact takes'.whole tail (by omega)
      · intro front begins strict length
        rw [bind_apply]
        rcases Wire.prefix_append_cases begins with ⟨inside, less⟩ | ⟨more, rfl, begins'⟩
        · rw [takes.short front inside less length]
          rfl
        · rw [List.length_append] at length
          rw [takes.whole more (by omega)]
          exact takes'.short more begins' (fun same => strict (by rw [same])) (by omega)

variable {total : Nat} {α β : Type}

theorem follows_streamFree {act : Run α} (fault : Bool) (free : Run.StreamFree act) :
    Follows total α (marked fault act) (marked fault act) := by
  intro m rest position a m' stream ran
  have ran : act m = .ok (a, m') := by
    unfold marked at ran
    split at ran
    · rename_i out same
      cases ran
      exact same
    · cases ran
  refine ⟨[], rest, rfl, by rw [free.stream_eq ran, stream]; rfl, fun tail _ => ?_,
    fun front begins strict => absurd (List.prefix_nil.mp begins) strict⟩
  rw [marked, free m, ran]
  rfl

theorem follows_read (order : Wire.ByteOrder) (p : Primitive) (bounded : p ≠ .rest) :
    Follows total _ (effect (Run.read order p)) (effect (Run.read order p)) := by
  intro m rest position v m' stream ran
  rw [effect_read order p m stream] at ran
  split at ran
  case h_1 => cases ran
  case h_2 reader' read =>
    cases ran
    obtain ⟨used, front, takes⟩ := Wire.local_read order p bounded _ _ _ read
    have again := takes.whole reader'.rest position
    rw [← front, read] at again
    have position' : reader' = ⟨reader'.rest, position + used.length⟩ := by
      have second := congrArg Prod.snd again
      exact second
    refine ⟨used, reader'.rest, front, by rw [← position'], fun tail _ => ?_,
      fun short begins strict _ => ?_⟩
    · rw [effect_read order p _ rfl, takes.whole]
    · obtain ⟨reader, stopped⟩ := takes.short short begins strict position
      rw [effect_read order p _ rfl, stopped]

/-! ### Calls -/

theorem marked_bind {α β : Type} (fault : Bool) (act : Run α) (next : α → Run β) :
    marked fault (act >>= next) = marked fault act >>= fun a => marked fault (next a) := by
  funext m
  rw [bind_apply]
  simp only [marked, Run.bind_apply]
  cases act m <;> rfl

theorem effect_bind {α β : Type} (act : Run α) (next : α → Run β) :
    effect (act >>= next) = effect act >>= fun a => effect (next a) :=
  marked_bind false act next

theorem ok_of_effect {act : Run α} {m m' : Machine} {a : α} :
    effect act m = .ok (a, m') ↔ act m = .ok (a, m') := by
  simp only [effect, marked]
  cases act m <;> simp

/-- Marks do not matter for a step that counts as an effect. -/
theorem follows_unmarked {x y : Probe α} (follows : Follows total α x y) :
    Follows total α (effect (unmarked x)) (effect (unmarked y)) := by
  have opened (z : Probe α) (m : Machine) :
      effect (unmarked z) m = (z m).mapError fun stop => ⟨stop.cause, false⟩ := by
    simp only [effect, marked, unmarked]
    cases z m <;> rfl
  intro m rest position a m' stream ran
  have ran : x m = .ok (a, m') := by
    rw [opened] at ran
    cases result : x m with
    | ok out =>
      rw [result] at ran
      cases ran
      rfl
    | error stop =>
      rw [result] at ran
      cases ran
  obtain ⟨used, tail, rest_eq, stream', takes⟩ := follows m rest position a m' stream ran
  refine ⟨used, tail, rest_eq, stream', fun tail length => ?_, fun front begins strict length => ?_⟩
  · rw [opened, takes.whole tail length]
    rfl
  · rw [opened, takes.short front begins strict length]
    rfl

theorem follows_withEnv {x y : Run α} (own : Env)
    (follows : Follows total α (effect x) (effect y)) :
    Follows total α (effect (Run.withEnv own x)) (effect (Run.withEnv own y)) := by
  have opened (z : Run α) (m : Machine) : effect (Run.withEnv own z) m =
      (effect z { m with env := own }).map fun out => (out.1, { out.2 with env := m.env }) := by
    simp only [effect, marked, Run.withEnv_apply]
    cases z { m with env := own } <;> rfl
  intro m rest position a m' stream ran
  rw [opened] at ran
  cases ran' : effect x { m with env := own } with
  | error stop =>
    rw [ran'] at ran
    cases ran
  | ok out =>
    rw [ran'] at ran
    cases ran
    obtain ⟨used, tail, rest_eq, stream', takes⟩ :=
      follows { m with env := own } rest position _ _ stream ran'
    refine ⟨used, tail, rest_eq, stream', fun tail length => ?_,
      fun front begins strict length => ?_⟩
    · rw [opened, takes.whole tail length]
      rfl
    · rw [opened, takes.short front begins strict length]
      rfl

theorem follows_checkDepth (g : Generated) (size depth : Nat) :
    Follows total _ (effect (Run.checkDepth g size depth))
      (effect (Run.checkDepth g size depth)) := by
  intro m rest position a m' stream ran
  rw [ok_of_effect, Run.checkDepth] at ran
  split at ran
  case isFalse => cases ran
  case isTrue shallow =>
    cases ran
    rw [stream] at shallow
    refine ⟨[], rest, rfl, stream, fun tail _ => ?_, fun front begins strict => ?_⟩
    · exact ok_of_effect.mpr (if_pos shallow)
    · exact absurd (List.prefix_nil.mp begins) strict

theorem callDepth_mono (g : Generated) {m n : Nat} (le : m ≤ n) : g.callDepth m ≤ g.callDepth n :=
  Nat.mul_le_mul_left _ (by omega)

/-- A call that the first run may make, the second may make as well, since both are at the same
position and the second has fuel for all of its bytes. -/
theorem follows_guarded {g : Generated} {size depth fuel : Nat}
    (enough : g.callDepth (size + total) ≤ fuel + depth) {x : Run α} {y : Nat → Run α}
    (inner : ∀ fuel, g.callDepth (size + total) ≤ fuel + (depth + 1) →
      Follows total α (effect x) (effect (y fuel))) :
    Follows total α (effect (do Run.checkDepth g size depth; x))
      (effect (match fuel with
        | 0 => throw .tooDeep
        | fuel + 1 => do Run.checkDepth g size depth; y fuel)) := by
  have guarded (fuel : Nat) (enough : g.callDepth (size + total) ≤ fuel + (depth + 1)) :
      Follows total α (effect (do Run.checkDepth g size depth; x))
        (effect (do Run.checkDepth g size depth; y fuel)) := by
    rw [effect_bind, effect_bind]
    exact (compatible_follows total).bind (follows_checkDepth g size depth) fun _ =>
      inner fuel enough
  cases fuel with
  | succ fuel => exact guarded fuel (by omega)
  | zero =>
    -- The first run passed the check, so the position lies beyond all bytes of the second.
    intro m rest position a m' stream ran
    obtain ⟨used, tail, rest_eq, stream', _⟩ :=
      guarded (g.callDepth (size + total)) (by omega) m rest position a m' stream ran
    have beyond : total < position := by
      rw [ok_of_effect, Run.bind_apply, Run.checkDepth, stream] at ran
      split at ran
      case isFalse => cases ran
      case isTrue shallow =>
        rcases Nat.lt_or_ge total position with beyond | within
        · exact beyond
        · have := callDepth_mono g (Nat.add_le_add_left within size)
          simp only [Stream.position] at shallow
          omega
    exact ⟨used, tail, rest_eq, stream', fun _ _ => by omega, fun _ _ _ _ => by omega⟩

end Probe

/-! ### The code that a decoder can run -/

/-- The parts of all expressions of a body. -/
def Ir.Block.nodes (b : Block) : List Expr := Stmt.nodes b.stmts ++ b.result.nodes

/-- The bodies that a run of a body can reach: itself, and those of the codecs that are called. The
body of an encoder has no result. -/
inductive Generated.Reaches (g : Generated) (root : Block) : Block → Prop where
  | start : Reaches g root root
  | decoder {b : Block} {codec : String} {d : CodecDecl} (reached : Reaches g root b)
      (called : .callDecode codec ∈ b.nodes) (found : g.codec? codec = some d) :
      Reaches g root d.decode
  | encoder {b : Block} {codec : String} {e : Expr} {d : CodecDecl} (reached : Reaches g root b)
      (called : .writeCodec codec e ∈ Stmt.flattenBlock b.stmts)
      (found : g.codec? codec = some d) : Reaches g root ⟨d.encode, .absent⟩

/-- No code that the body can run reads all that is left. -/
def Generated.RestFree (g : Generated) (root : Block) : Prop :=
  ∀ b, g.Reaches root b → .read .rest ∉ b.nodes

theorem Generated.Reaches.trans {g : Generated} {a b c : Block} (first : g.Reaches a b)
    (second : g.Reaches b c) : g.Reaches a c := by
  induction second with
  | start => exact first
  | decoder _ called found ih => exact .decoder ih called found
  | encoder _ called found ih => exact .encoder ih called found

theorem Generated.RestFree.of_reaches {g : Generated} {a b : Block} (restFree : g.RestFree a)
    (reached : g.Reaches a b) : g.RestFree b :=
  fun c reached' => restFree c (reached.trans reached')

namespace Probe

variable {total : Nat} {g : Generated}

/-- What a body may use: its nodes, the codecs it reads with and those it writes with. -/
theorem follows_body {p q : Program} (b : Block) (code : p.code = g) (code' : q.code = g)
    (orders : q.order = p.order) (restFree : g.RestFree b)
    (decode : ∀ codec, (∀ d, g.codec? codec = some d → g.RestFree d.decode) →
      Follows total _ (effect (p.calls.decode codec)) (effect (q.calls.decode codec)))
    (encode : ∀ codec v, (∀ d, g.codec? codec = some d → g.RestFree ⟨d.encode, .absent⟩) →
      Follows total _ (effect (p.calls.encode codec v)) (effect (q.calls.encode codec v))) :
    Follows total _ (evalBlock p b) (evalBlock q b) := by
  obtain ⟨fresh, absent⟩ := exists_fresh (Stmt.uses b.stmts ++ b.result.locals)
  rw [List.mem_append, not_or] at absent
  let good (n : Expr) : Prop := n ∈ b.nodes ∧ n.localId? ≠ some fresh
  let writer (codec : String) : Prop := ∃ e, .writeCodec codec e ∈ Stmt.flattenBlock b.stmts
  have steps : StmtSteps (Follows total) p q ⟨fresh, .absent⟩ good (fun _ => True) writer :=
    { compatible_follows total with
      code := code'.trans code.symm
      order := orders
      var := by
        intro x ⟨_, other⟩
        have other : x.id ≠ fresh := fun same => other (congrArg some same)
        simp only [Expr.subst, if_neg other, eval]
        exact follows_streamFree true (Run.streamFree_valueOf x)
      read := by
        intro prim ⟨member, _⟩
        refine follows_read p.order prim ?_
        rintro rfl
        exact restFree b .start member
      fromId := fun type _ _ v =>
        follows_streamFree false (Run.settled_nameOfId p.code type v).streamFree
      decode := fun codec ⟨member, _⟩ => decode codec fun d found =>
        restFree.of_reaches (.decoder .start member found)
      call := fun path _ fallible _ values =>
        follows_streamFree false (Run.streamFree_callHost p.code path values fallible)
      failure := fun e _ _ _ _ _ _ ran => nomatch ran
      set := fun x _ v => follows_streamFree false (Run.streamFree_bind x v)
      push := fun x _ v => follows_streamFree false (Run.streamFree_push x v)
      write := by
        -- A decoder cannot write, so there is nothing to follow.
        intro prim v m rest position a m' stream ran
        rw [ok_of_effect] at ran
        simp only [Run.write, Run.bind_apply, get, getThe, MonadStateOf.get, StateT.get, pure,
          Except.pure, Except.bind, stream] at ran
        cases ran
      encode := fun codec ⟨e, member⟩ v => encode codec v fun d found =>
        restFree.of_reaches (.encoder .start member found) }
  have fits : ∀ t ∈ Stmt.flattenBlock b.stmts, Fits good (fun _ => True) writer t := by
    intro t member
    refine ⟨fun e expr n node => ⟨?_, fun here => absent.1 ?_⟩, fun _ _ => trivial,
      fun _ _ => trivial, ?_⟩
    · refine List.mem_append_left _ (List.mem_flatMap.mpr ⟨t, member, ?_⟩)
      exact List.mem_flatMap.mpr ⟨e, expr, node⟩
    · refine List.mem_flatMap.mpr ⟨t, member, List.mem_append_left _ ?_⟩
      exact List.mem_flatMap.mpr ⟨e, expr, Expr.mem_locals node here⟩
    · rintro codec e rfl
      exact ⟨e, member⟩
  have related := steps.evalBlock b fits fun n node =>
    ⟨List.mem_append_right _ node, fun here => absent.2 (Expr.mem_locals node here)⟩
  rwa [Stmt.substBlock_of_not_mem _ b.stmts absent.1,
    b.result.subst_of_not_mem _ absent.2] at related

section Codecs

variable {p q : Program} (code : p.code = g) (code' : q.code = g)
  (body : ∀ b, g.RestFree b → Follows total _ (evalBlock p b) (evalBlock q b))

include code code' body

theorem follows_decodeWith (codec : String)
    (restFree : ∀ d, g.codec? codec = some d → g.RestFree d.decode) :
    Follows total _ (effect (Calls.decodeWith p codec)) (effect (Calls.decodeWith q codec)) := by
  simp only [Calls.decodeWith, code, code']
  cases found : g.codec? codec with
  | none => exact follows_streamFree false (Run.Settled.failure _).streamFree
  | some d =>
    simp only [effect_bind]
    refine (compatible_follows total).bind (follows_streamFree false (Run.streamFree_note _))
      fun _ => follows_withEnv [] ?_
    rw [← unmarked_evalBlock, ← unmarked_evalBlock]
    exact follows_unmarked (body d.decode (restFree d found))

theorem follows_encodeWith (codec : String) (v : Value)
    (restFree : ∀ d, g.codec? codec = some d → g.RestFree ⟨d.encode, .absent⟩) :
    Follows total _ (effect (Calls.encodeWith p codec v))
      (effect (Calls.encodeWith q codec v)) := by
  have withResult (p : Program) (stmts : List Stmt) :
      execBlock p stmts = evalBlock p ⟨stmts, .absent⟩ >>= fun _ => pure () := by
    simp [evalBlock, eval]
  simp only [Calls.encodeWith, code, code']
  cases found : g.codec? codec with
  | none => exact follows_streamFree false (Run.Settled.failure _).streamFree
  | some d =>
    simp only [effect_bind]
    refine (compatible_follows total).bind (follows_streamFree false (Run.streamFree_note _))
      fun _ => follows_withEnv _ ?_
    rw [← unmarked_execBlock, ← unmarked_execBlock, withResult, withResult]
    exact follows_unmarked ((compatible_follows total).bind (body _ (restFree d found)) fun _ =>
      (compatible_follows total).pure ())

end Codecs

/-- Calls are local, whatever their fuel, if the second has enough for its bytes. -/
theorem follows_nested (g : Generated) (order : Wire.ByteOrder)
    (total size fuel fuel' depth : Nat)
    (enough : g.callDepth (size + total) ≤ fuel' + depth) :
    (∀ codec, (∀ d, g.codec? codec = some d → g.RestFree d.decode) →
      Follows total _ (effect ((g.programAt order size fuel depth).calls.decode codec))
        (effect ((g.programAt order size fuel' depth).calls.decode codec))) ∧
    ∀ codec v, (∀ d, g.codec? codec = some d → g.RestFree ⟨d.encode, .absent⟩) →
      Follows total _ (effect ((g.programAt order size fuel depth).calls.encode codec v))
        (effect ((g.programAt order size fuel' depth).calls.encode codec v)) := by
  induction fuel generalizing fuel' depth with
  | zero =>
    constructor
    · intro codec _ m rest position a m' stream ran
      cases ran
    · intro codec v _ m rest position a m' stream ran
      cases ran
  | succ fuel ih =>
    have body (k : Nat) (enough : g.callDepth (size + total) ≤ k + (depth + 1)) (b : Block)
        (restFree : g.RestFree b) :
        Follows total _ (evalBlock (g.programAt order size fuel (depth + 1)) b)
          (evalBlock (g.programAt order size k (depth + 1)) b) :=
      follows_body b rfl rfl rfl restFree (ih k (depth + 1) enough).1 (ih k (depth + 1) enough).2
    constructor
    · intro codec restFree
      have guarded := follows_guarded enough fun k enough =>
        follows_decodeWith (g := g) rfl rfl (body k enough) codec restFree
      cases fuel' <;> exact guarded
    · intro codec v restFree
      have guarded := follows_guarded enough fun k enough =>
        follows_encodeWith (g := g) rfl rfl (body k enough) codec v restFree
      cases fuel' <;> exact guarded

end Probe

/-! ### Decoders -/

/-- A decoder that succeeds after `n` bytes depends on these alone, and wants more on fewer. -/
def LocalDecoder (decode : List UInt8 → Except RunError (Nat × Value)) : Prop :=
  ∀ bytes n v, decode bytes = .ok (n, v) →
    n ≤ bytes.length ∧
    (∀ other, other.take n = bytes.take n → decode other = .ok (n, v)) ∧
    ∀ short, short <+: bytes.take n → short ≠ bytes.take n →
      decode short = .error (.decode .unexpectedEnd)

theorem runDecoder_eq (g : Generated) (order : Wire.ByteOrder) (root : Block)
    (bytes : List UInt8) : g.runDecoder order root bytes =
      match Probe.evalBlock (g.program order 0 bytes.length) root
        ⟨[], .input (.ofBytes bytes), []⟩ with
      | .ok (v, m) => .ok (m.stream.position, v)
      | .error stop => .error stop.cause := by
  simp only [Generated.runDecoder, StateT.run, bind, Except.bind, ← Probe.unmarked_evalBlock,
    Probe.unmarked]
  cases Probe.evalBlock (g.program order 0 bytes.length) root ⟨[], .input (.ofBytes bytes), []⟩ with
  | error stop => rfl
  | ok out =>
    obtain ⟨v, env, stream, events⟩ := out
    cases stream <;> rfl

theorem localDecoder_runDecoder (g : Generated) (order : Wire.ByteOrder) (root : Block)
    (restFree : g.RestFree root) : LocalDecoder (g.runDecoder order root) := by
  intro bytes n v ran
  have follows (total : Nat) : Probe.Follows total _
      (Probe.evalBlock (g.program order 0 bytes.length) root)
      (Probe.evalBlock (g.program order 0 total) root) := by
    have limited (length : Nat) : g.program order 0 length =
        g.programAt order 0 (g.callDepth (0 + length)) 0 := rfl
    obtain ⟨decode, encode⟩ := Probe.follows_nested g order total 0
      (g.callDepth (0 + bytes.length)) (g.callDepth (0 + total)) 0 (Nat.le_add_right _ _)
    rw [limited, limited]
    exact Probe.follows_body root (g.code_programAt ..) (g.code_programAt ..) (by simp) restFree
      decode encode
  rw [runDecoder_eq] at ran
  split at ran
  case h_2 => cases ran
  case h_1 m start =>
    cases ran
    obtain ⟨used, tail, rfl, stream, _⟩ := follows bytes.length _ _ _ _ _ rfl start
    have position : m.stream.position = used.length := by
      rw [stream, Stream.position, Nat.zero_add]
    have takes (total : Nat) : Probe.Takes total
        (Probe.evalBlock (g.program order 0 total) root)
        ⟨[], .input (.ofBytes (used ++ tail)), []⟩ 0 used v m := by
      obtain ⟨used', tail', rest', stream', takes⟩ := follows total _ _ _ _ _ rfl start
      have length : used.length = used'.length := by
        rw [stream'] at position
        simpa [Stream.position] using position.symm
      obtain ⟨rfl, rfl⟩ := List.append_inj rest' length
      exact takes
    rw [position, List.take_left]
    refine ⟨by simp, fun other same => ?_, fun short begins strict => ?_⟩
    · obtain ⟨back, rfl⟩ : ∃ back, other = used ++ back := by
        have whole := List.take_append_drop used.length other
        rw [same] at whole
        exact ⟨_, whole.symm⟩
      have ran := (takes (used ++ back).length).whole back (by simp)
      rw [runDecoder_eq]
      simp only [Wire.Reader.ofBytes, ran, Stream.position, Nat.zero_add]
    · have stopped := (takes short.length).short short begins strict (Nat.zero_add _)
      rw [runDecoder_eq]
      simp only [Wire.Reader.ofBytes, stopped]

/-- The decoders of all packets and codecs do without the primitive that takes all that is left. -/
structure Generated.DecodesWithoutRest (g : Generated) : Prop where
  packets : ∀ u ∈ g.protocols, ∀ f ∈ u.flows, ∀ packet ∈ f.packets, g.RestFree packet.decode
  codecs : ∀ codec d, g.codec? codec = some d → g.RestFree d.decode

theorem decodePacket_cases (g : Generated) (order : Wire.ByteOrder) (protocol : String)
    (flow : Flow) (id : Int) :
    (∃ u ∈ g.protocols, ∃ f ∈ u.flows, ∃ packet ∈ f.packets, ∀ bytes,
      g.decodePacket order protocol flow id bytes = g.runDecoder order packet.decode bytes) ∨
    ∃ e, ∀ bytes, g.decodePacket order protocol flow id bytes = .error e := by
  unfold Generated.decodePacket Generated.flowOf
  cases unit : g.protocol? protocol with
  | none => exact .inr ⟨_, fun _ => rfl⟩
  | some u =>
    cases direction : u.flow? flow with
    | none => exact .inr ⟨_, fun _ => by simp [direction]; rfl⟩
    | some f =>
      cases chosen : f.packetById? id with
      | none => exact .inr ⟨_, fun _ => by simp [direction, chosen, bind, Except.bind]; rfl⟩
      | some packet =>
        refine .inl ⟨u, List.mem_of_find?_eq_some unit, f, List.mem_of_find?_eq_some direction,
          packet, List.mem_of_find?_eq_some chosen, fun bytes => ?_⟩
        simp [direction, chosen, bind, Except.bind]

/-- Decoding of packets and of exported types is local. -/
theorem decoding_is_local (g : Generated) (order : Wire.ByteOrder)
    (withoutRest : g.DecodesWithoutRest) :
    (∀ protocol flow id, LocalDecoder (g.decodePacket order protocol flow id)) ∧
    ∀ codec d, g.codec? codec = some d → LocalDecoder (g.runDecoder order d.decode) ∧
      ∀ bytes, g.decodeType order codec bytes = (g.runDecoder order d.decode bytes).map (·.2) := by
  constructor
  · intro protocol flow id bytes n v ran
    rcases decodePacket_cases g order protocol flow id with
      ⟨u, unit, f, direction, packet, member, same⟩ | ⟨e, fails⟩
    · simp only [same] at ran ⊢
      exact localDecoder_runDecoder g order packet.decode
        (withoutRest.packets u unit f direction packet member) bytes n v ran
    · rw [fails] at ran
      cases ran
  · intro codec d found
    refine ⟨localDecoder_runDecoder g order d.decode (withoutRest.codecs codec d found), ?_⟩
    intro bytes
    simp only [Generated.decodeType, found]
    cases g.runDecoder order d.decode bytes <;> rfl

/-- Code with one packet, which holds a name, and the codec of names. -/
def greetingCode : Generated where
  types := [.codec
    { name := "name", type := .prim .string, decode := ⟨[], .read .string⟩, value := ⟨0, "value"⟩,
      encode := [.write .string (.place ⟨0, "value"⟩)] }]
  protocols := [
    { name := "chat"
      flows := [
        { flow := .clientbound
          packets := [
            { id := 0, name := "greeting", typeName := "Greeting", handler := "on_greeting",
              doc := none, fields := [],
              decode := ⟨[], .struct "Greeting" [("name", .callDecode "name")]⟩,
              this := ⟨0, "self"⟩, encode := [], methods := [] }]
          shared := []
          external := [] }] }]
  functions := []

theorem mem_of_codec? {g : Generated} {codec : String} {d : CodecDecl}
    (found : g.codec? codec = some d) : .codec d ∈ g.types := by
  obtain ⟨decl, member, same⟩ := List.exists_of_findSome?_eq_some found
  split at same
  · split at same
    · cases same
      exact member
    · cases same
  · cases same

theorem greetingCode_decodesWithoutRest : greetingCode.DecodesWithoutRest := by
  have reached (root : Block) (b : Block)
      (start : root = ⟨[], .struct "Greeting" [("name", .callDecode "name")]⟩ ∨
        root = ⟨[], .read .string⟩) (reaches : greetingCode.Reaches root b) :
      b = ⟨[], .struct "Greeting" [("name", .callDecode "name")]⟩ ∨ b = ⟨[], .read .string⟩ := by
    induction reaches with
    | start => exact start
    | decoder _ called found ih =>
      have member := mem_of_codec? found
      simp only [greetingCode, List.mem_singleton, Decl.codec.injEq] at member
      exact .inr (by rw [member])
    | encoder _ called found ih =>
      rcases ih with rfl | rfl <;> simp [Stmt.flattenBlock] at called
  have restFree (root : Block)
      (start : root = ⟨[], .struct "Greeting" [("name", .callDecode "name")]⟩ ∨
        root = ⟨[], .read .string⟩) : greetingCode.RestFree root := by
    intro b reaches
    rcases reached root b start reaches with rfl | rfl <;>
      simp [Block.nodes, Stmt.nodes, Stmt.flattenBlock, Expr.nodes, Expr.nodesFields]
  constructor
  · intro u unit f direction packet member
    simp only [greetingCode, List.mem_singleton] at unit
    subst unit
    simp only [List.mem_singleton] at direction
    subst direction
    simp only [List.mem_singleton] at member
    subst member
    exact restFree _ (.inl rfl)
  · intro codec d found
    have member := mem_of_codec? found
    simp only [greetingCode, List.mem_singleton, Decl.codec.injEq] at member
    exact restFree _ (.inr (by rw [member]))

/-- A greeting depends on its own bytes, and one that is cut off is not read. -/
theorem decoding_is_local_greeting :
    greetingCode.DecodesWithoutRest ∧
    greetingCode.decodePacket .big "chat" .clientbound 0 [2, 104, 105, 9] =
      .ok (3, .struct [("name", .str "hi")]) ∧
    greetingCode.decodePacket .big "chat" .clientbound 0 [2, 104] =
      .error (.decode .unexpectedEnd) := by
  have decoded : greetingCode.decodePacket .big "chat" .clientbound 0 [2, 104, 105] =
      .ok (3, .struct [("name", .str "hi")]) := by
    rfl
  have kept := (decoding_is_local greetingCode .big greetingCode_decodesWithoutRest).1 "chat"
    .clientbound 0 _ _ _ decoded
  exact ⟨greetingCode_decodesWithoutRest, kept.2.1 _ rfl, kept.2.2 _ ⟨[105], rfl⟩ (by decide)⟩

end WireSchema
