import WireSchema.Document.Outcome
import WireSchema.Proofs.Ir.Renaming
import WireSchema.Proofs.Machine.Isolation

/-!
# Runs of code under other names

Two pieces of code that are equal up to names run alike, if the names stand for the same: equal
names of enumerations for the same entries, and equal names of codecs for calls that run alike. Only
the details of errors tell the two apart.
-/

namespace WireSchema

open Ir Document

/-- Results that are equal up to their errors go on alike. -/
theorem mapError_bind {ε ε' α β : Type} {f : ε → ε'} {x y : Except ε α} {h k : α → Except ε β}
    (first : x.mapError f = y.mapError f) (second : ∀ a, (h a).mapError f = (k a).mapError f) :
    (x.bind h).mapError f = (y.bind k).mapError f := by
  cases x with
  | error e =>
    cases y with
    | error e' => exact congrArg Except.error (Except.error.inj first)
    | ok b => cases first
  | ok a =>
    cases y with
    | error e' => cases first
    | ok b =>
      cases Except.ok.inj first
      exact second a

namespace Run

/-- The steps take every machine to the same value and machine, or to errors of one kind. -/
def Same {α : Type} (x y : Run α) : Prop :=
  ∀ m : Machine, (x m).mapError runErrorKind = (y m).mapError runErrorKind

variable {α β : Type}

theorem Same.refl (x : Run α) : Same x x := fun _ => rfl

theorem same_throw {e e' : RunError} (kind : runErrorKind e = runErrorKind e') :
    Same (throw e : Run α) (throw e') := by
  intro m
  change Except.error (runErrorKind e) = Except.error (runErrorKind e')
  rw [kind]

theorem Same.bind {x y : Run α} {f g : α → Run β} (first : Same x y)
    (second : ∀ a, Same (f a) (g a)) : Same (x >>= f) (y >>= g) :=
  fun m => mapError_bind (first m) fun out => second out.1 out.2

/-- One step that goes on in two ways. -/
theorem Same.then {x : Run α} {f g : α → Run β} (second : ∀ a, Same (f a) (g a)) :
    Same (x >>= f) (x >>= g) := (Same.refl x).bind second

theorem Same.withEnv {x y : Run α} (same : Same x y) (env : Env) :
    Same (withEnv env x) (withEnv env y) := by
  refine Same.then fun m => Same.then fun _ => same.bind fun _ => .refl _

theorem same_times {x y : Run Unit} (same : Same x y) (n : Nat) : Same (times x n) (times y n) := by
  induction n with
  | zero => exact .refl _
  | succ n ih => exact same.bind fun _ => ih

theorem same_forEach {f g : α → Run Unit} (same : ∀ a, Same (f a) (g a)) (items : List α) :
    Same (forEach f items) (forEach g items) := by
  induction items with
  | nil => exact .refl _
  | cons item rest ih => exact (same item).bind fun _ => ih

end Run

/-- The programs read names alike, once those of the first are changed by `ρ` and those of the
second by `ρ'`. -/
structure Program.Agree (ρ ρ' : Renaming) (p p' : Program) : Prop where
  order : p.order = p'.order
  functions : p.code.functions = p'.code.functions
  enums : ∀ type type', ρ.enum type = ρ'.enum type' → ∃ d d' : EnumDecl,
    Run.enumOf p.code type = pure d ∧ Run.enumOf p'.code type' = pure d' ∧
      d.entries = d'.entries ∧ d.backing = d'.backing
  decode : ∀ codec codec', ρ.codec codec = ρ'.codec codec' →
    Run.Same (p.calls.decode codec) (p'.calls.decode codec')
  encode : ∀ codec codec', ρ.codec codec = ρ'.codec codec' →
    ∀ v, Run.Same (p.calls.encode codec v) (p'.calls.encode codec' v)

namespace Program.Agree

variable {ρ ρ' : Renaming} {p p' : Program}

theorem nameOfId (agree : Agree ρ ρ' p p') {type type' : String}
    (named : ρ.enum type = ρ'.enum type') (v : Value) :
    Run.Same (Run.nameOfId p.code type v) (Run.nameOfId p'.code type' v) := by
  obtain ⟨d, d', found, found', entries, _⟩ := agree.enums type type' named
  refine Run.Same.then fun n => ?_
  obtain ⟨id, kind⟩ := n
  dsimp only
  rw [found, found', pure_bind, pure_bind]
  have names (id : Int) : d.nameOf? id = d'.nameOf? id := by
    rw [EnumDecl.nameOf?, entries, EnumDecl.nameOf?]
  rw [names]
  split
  · exact .refl _
  · exact Run.same_throw rfl

theorem idOfName (agree : Agree ρ ρ' p p') {type type' : String}
    (named : ρ.enum type = ρ'.enum type') (v : Value) :
    Run.Same (Run.idOfName p.code type v) (Run.idOfName p'.code type' v) := by
  obtain ⟨d, d', found, found', entries, backing⟩ := agree.enums type type' named
  unfold Run.idOfName
  split
  · rw [found, found', pure_bind, pure_bind]
    have ids (name : String) : d.idOf? name = d'.idOf? name := by
      rw [EnumDecl.idOf?, entries, EnumDecl.idOf?]
    rw [ids, backing]
    split
    · exact .refl _
    · exact Run.same_throw rfl
  · exact .refl _

theorem callHost (agree : Agree ρ ρ' p p') (path : String) (args : List Value) (fallible : Bool) :
    Run.Same (Run.callHost p.code path args fallible) (Run.callHost p'.code path args fallible) := by
  rw [Run.callHost, agree.functions, ← Run.callHost]
  exact .refl _

mutual

/-- Expressions that are equal up to names have the same value. -/
theorem eval (agree : Agree ρ ρ' p p') : ∀ e e' : Expr, e.rename ρ = e'.rename ρ' →
    Run.Same (Run.eval p e) (Run.eval p' e')
  | .lit _, e', same => by
    cases e' with
    | lit _ =>
      cases same
      exact .refl _
    | _ => cases same
  | .var _, e', same => by
    cases e' with
    | var _ =>
      cases same
      exact .refl _
    | _ => cases same
  | .absent, e', same => by
    cases e' with
    | absent =>
      cases same
      exact .refl _
    | _ => cases same
  | .newList, e', same => by
    cases e' with
    | newList =>
      cases same
      exact .refl _
    | _ => cases same
  | .newMap, e', same => by
    cases e' with
    | newMap =>
      cases same
      exact .refl _
    | _ => cases same
  | .deref e, e', same => by
    cases e' with
    | deref e' => exact agree.eval e e' (Expr.deref.inj same)
    | _ => cases same
  | .borrow e, e', same => by
    cases e' with
    | borrow e' => exact agree.eval e e' (Expr.borrow.inj same)
    | _ => cases same
  | .present e, e', same => by
    cases e' with
    | present e' => exact agree.eval e e' (Expr.present.inj same)
    | _ => cases same
  | .read _, e', same => by
    cases e' with
    | read _ =>
      cases same
      simp only [Run.eval, agree.order]
      exact .refl _
    | _ => cases same
  | .field e _, e', same => by
    cases e' with
    | field e' _ =>
      obtain ⟨inner, rfl⟩ := Expr.field.inj same
      exact (agree.eval e e' inner).bind fun _ => .refl _
    | _ => cases same
  | .struct _ fields, e', same => by
    cases e' with
    | struct _ fields' =>
      exact (agree.evalFields fields fields' (Expr.struct.inj same).2).bind fun _ => .refl _
    | _ => cases same
  | .variant _ _ payload, e', same => by
    cases e' with
    | variant _ _ payload' =>
      obtain ⟨_, rfl, inner⟩ := Expr.variant.inj same
      exact (agree.evalOption payload payload' inner).bind fun _ => .refl _
    | _ => cases same
  | .enumValue _ _, e', same => by
    cases e' with
    | enumValue _ _ =>
      obtain ⟨_, rfl⟩ := Expr.enumValue.inj same
      exact .refl _
    | _ => cases same
  | .fromId _ e, e', same => by
    cases e' with
    | fromId _ e' =>
      obtain ⟨named, inner⟩ := Expr.fromId.inj same
      exact (agree.eval e e' inner).bind fun v => agree.nameOfId named v
    | _ => cases same
  | .toId _ e, e', same => by
    cases e' with
    | toId _ e' =>
      obtain ⟨named, inner⟩ := Expr.toId.inj same
      exact (agree.eval e e' inner).bind fun v => agree.idOfName named v
    | _ => cases same
  | .binary _ a b, e', same => by
    cases e' with
    | binary _ a' b' =>
      obtain ⟨rfl, left, right⟩ := Expr.binary.inj same
      refine (agree.eval a a' left).bind fun _ => Run.Same.then fun _ => ?_
      exact (agree.eval b b' right).bind fun _ => .refl _
    | _ => cases same
  | .cast e _, e', same => by
    cases e' with
    | cast e' _ =>
      obtain ⟨inner, rfl⟩ := Expr.cast.inj same
      exact (agree.eval e e' inner).bind fun _ => .refl _
    | _ => cases same
  | .cond c t o, e', same => by
    cases e' with
    | cond c' t' o' =>
      obtain ⟨test, yes, no⟩ := Expr.cond.inj same
      refine (agree.eval c c' test).bind fun _ => Run.Same.then fun truth => ?_
      cases truth with
      | true => exact agree.eval t t' yes
      | false => exact agree.eval o o' no
    | _ => cases same
  | .isPresent e, e', same => by
    cases e' with
    | isPresent e' => exact (agree.eval e e' (Expr.isPresent.inj same)).bind fun _ => .refl _
    | _ => cases same
  | .len e, e', same => by
    cases e' with
    | len e' => exact (agree.eval e e' (Expr.len.inj same)).bind fun _ => .refl _
    | _ => cases same
  | .pair a b, e', same => by
    cases e' with
    | pair a' b' =>
      obtain ⟨left, right⟩ := Expr.pair.inj same
      exact (agree.eval a a' left).bind fun _ => (agree.eval b b' right).bind fun _ => .refl _
    | _ => cases same
  | .callDecode codec, e', same => by
    cases e' with
    | callDecode codec' => exact agree.decode codec codec' (Expr.callDecode.inj same)
    | _ => cases same
  | .call path args fallible, e', same => by
    cases e' with
    | call _ args' _ =>
      obtain ⟨rfl, inner, rfl⟩ := Expr.call.inj same
      exact (agree.evalList args args' inner).bind fun values => agree.callHost path values fallible
    | _ => cases same

theorem evalOption (agree : Agree ρ ρ' p p') : ∀ e e' : Option Expr,
    Expr.renameOption ρ e = Expr.renameOption ρ' e' →
    Run.Same (Run.evalOption p e) (Run.evalOption p' e')
  | none, e', same => by
    cases e' with
    | none => exact .refl _
    | some _ => cases same
  | some e, e', same => by
    cases e' with
    | none => cases same
    | some e' => exact (agree.eval e e' (Option.some.inj same)).bind fun _ => .refl _

theorem evalList (agree : Agree ρ ρ' p p') : ∀ es es' : List Expr,
    Expr.renameList ρ es = Expr.renameList ρ' es' →
    Run.Same (Run.evalList p es) (Run.evalList p' es')
  | [], es', same => by
    cases es' with
    | nil => exact .refl _
    | cons _ _ => cases same
  | e :: rest, es', same => by
    cases es' with
    | nil => cases same
    | cons e' rest' =>
      obtain ⟨first, others⟩ := List.cons.inj same
      exact (agree.eval e e' first).bind fun _ =>
        (agree.evalList rest rest' others).bind fun _ => .refl _

theorem evalFields (agree : Agree ρ ρ' p p') : ∀ fields fields' : List (String × Expr),
    Expr.renameFields ρ fields = Expr.renameFields ρ' fields' →
    Run.Same (Run.evalFields p fields) (Run.evalFields p' fields')
  | [], fields', same => by
    cases fields' with
    | nil => exact .refl _
    | cons _ _ => cases same
  | (name, e) :: rest, fields', same => by
    cases fields' with
    | nil => cases same
    | cons field' rest' =>
      obtain ⟨name', e'⟩ := field'
      obtain ⟨first, others⟩ := List.cons.inj same
      obtain ⟨rfl, inner⟩ := Prod.mk.inj first
      exact (agree.eval e e' inner).bind fun _ =>
        (agree.evalFields rest rest' others).bind fun _ => .refl _

end

/-! ### Statements -/

theorem raise (agree : Agree ρ ρ' p p') {f f' : Failure} (same : f.rename ρ = f'.rename ρ') :
    Run.Same (Run.raise p f) (Run.raise p' f') := by
  cases f with
  | unknownTag type tag =>
    cases f' with
    | unknownTag type' tag' =>
      have inner := (Failure.unknownTag.inj same).2
      simp only [Run.raise, Run.errorOf, bind_assoc, pure_bind]
      exact (agree.eval tag tag' inner).bind fun _ => Run.same_throw rfl
    | _ => cases same
  | literalMismatch expected found =>
    cases f' with
    | literalMismatch expected' found' =>
      obtain ⟨rfl, inner⟩ := Failure.literalMismatch.inj same
      simp only [Run.raise, Run.errorOf, bind_assoc, pure_bind]
      exact (agree.eval found found' inner).bind fun _ => .refl _
    | _ => cases same
  | unmatchedVariant type =>
    cases f' with
    | unmatchedVariant type' =>
      simp only [Run.raise, Run.errorOf, pure_bind]
      exact Run.same_throw rfl
    | _ => cases same

/-- What a pattern matches does not depend on the name of its type. -/
theorem matchBindings_eq {pattern pattern' : Pattern} (same : pattern.plain = pattern'.plain)
    (v : Value) : Run.matchBindings v pattern = Run.matchBindings v pattern' := by
  have plain (pattern : Pattern) :
      Run.matchBindings v pattern.plain = Run.matchBindings v pattern := by
    cases pattern <;> rfl
  rw [← plain, same, plain]

mutual

/-- Statements that are equal up to names do the same. -/
theorem exec (agree : Agree ρ ρ' p p') : ∀ s s' : Stmt, s.rename ρ = s'.rename ρ' →
    Run.Same (Run.exec p s) (Run.exec p' s')
  | .bind _ _ none, s', same => by
    cases s' with
    | bind _ _ init' =>
      cases init' with
      | none =>
        cases same
        exact .refl _
      | some _ => cases same
    | _ => cases same
  | .bind _ _ (some e), s', same => by
    cases s' with
    | bind _ _ init' =>
      cases init' with
      | none => cases same
      | some e' =>
        obtain ⟨rfl, _, inner⟩ := Stmt.bind.inj same
        exact (agree.eval e e' (Option.some.inj inner)).bind fun _ => .refl _
    | _ => cases same
  | .assign _ e, s', same => by
    cases s' with
    | assign _ e' =>
      obtain ⟨rfl, inner⟩ := Stmt.assign.inj same
      exact (agree.eval e e' inner).bind fun _ => .refl _
    | bind _ _ init' => cases init' <;> cases same
    | _ => cases same
  | .eval e, s', same => by
    cases s' with
    | eval e' => exact (agree.eval e e' (Stmt.eval.inj same)).bind fun _ => .refl _
    | bind _ _ init' => cases init' <;> cases same
    | _ => cases same
  | .write _ e, s', same => by
    cases s' with
    | write _ e' =>
      obtain ⟨rfl, inner⟩ := Stmt.write.inj same
      simp only [Run.exec, agree.order]
      exact (agree.eval e e' inner).bind fun _ => .refl _
    | bind _ _ init' => cases init' <;> cases same
    | _ => cases same
  | .writeCodec codec e, s', same => by
    cases s' with
    | writeCodec codec' e' =>
      obtain ⟨named, inner⟩ := Stmt.writeCodec.inj same
      exact (agree.eval e e' inner).bind fun v => agree.encode codec codec' named v
    | bind _ _ init' => cases init' <;> cases same
    | _ => cases same
  | .branch e yes no, s', same => by
    cases s' with
    | branch e' yes' no' =>
      obtain ⟨inner, left, right⟩ := Stmt.branch.inj same
      refine (agree.eval e e' inner).bind fun _ => Run.Same.then fun truth => ?_
      cases truth with
      | true => exact agree.execBlock yes yes' left
      | false => exact agree.execBlock no no' right
    | bind _ _ init' => cases init' <;> cases same
    | _ => cases same
  | .ifPresent _ e body, s', same => by
    cases s' with
    | ifPresent _ e' body' =>
      obtain ⟨rfl, inner, block⟩ := Stmt.ifPresent.inj same
      refine (agree.eval e e' inner).bind fun v => ?_
      split
      · exact .refl _
      · exact Run.Same.then fun _ => agree.execBlock body body' block
    | bind _ _ init' => cases init' <;> cases same
    | _ => cases same
  | .times e body, s', same => by
    cases s' with
    | times e' body' =>
      obtain ⟨inner, block⟩ := Stmt.times.inj same
      refine (agree.eval e e' inner).bind fun _ => Run.Same.then fun n => ?_
      exact Run.same_times (agree.execBlock body body' block) n
    | bind _ _ init' => cases init' <;> cases same
    | _ => cases same
  | .forEach _ e body, s', same => by
    cases s' with
    | forEach _ e' body' =>
      obtain ⟨rfl, inner, block⟩ := Stmt.forEach.inj same
      refine (agree.eval e e' inner).bind fun _ => Run.Same.then fun items => ?_
      exact Run.same_forEach (fun _ => Run.Same.then fun _ => agree.execBlock body body' block) items
    | bind _ _ init' => cases init' <;> cases same
    | _ => cases same
  | .forEachPair _ _ e body, s', same => by
    cases s' with
    | forEachPair _ _ e' body' =>
      obtain ⟨rfl, rfl, inner, block⟩ := Stmt.forEachPair.inj same
      refine (agree.eval e e' inner).bind fun _ => Run.Same.then fun entries => ?_
      refine Run.same_forEach (fun _ => ?_) entries
      exact Run.Same.then fun _ => Run.Same.then fun _ => agree.execBlock body body' block
    | bind _ _ init' => cases init' <;> cases same
    | _ => cases same
  | .push _ e, s', same => by
    cases s' with
    | push _ e' =>
      obtain ⟨rfl, inner⟩ := Stmt.push.inj same
      exact (agree.eval e e' inner).bind fun _ => .refl _
    | bind _ _ init' => cases init' <;> cases same
    | _ => cases same
  | .select e arms fallback, s', same => by
    cases s' with
    | select e' arms' fallback' =>
      obtain ⟨inner, others, last⟩ := Stmt.select.inj same
      exact (agree.eval e e' inner).bind fun v =>
        agree.execArms v fallback fallback' last arms arms' others
    | bind _ _ init' => cases init' <;> cases same
    | _ => cases same
  | .fail _, s', same => by
    cases s' with
    | fail _ => exact agree.raise (Stmt.fail.inj same)
    | bind _ _ init' => cases init' <;> cases same
    | _ => cases same

theorem execBlock (agree : Agree ρ ρ' p p') : ∀ stmts stmts' : List Stmt,
    Stmt.renameBlock ρ stmts = Stmt.renameBlock ρ' stmts' →
    Run.Same (Run.execBlock p stmts) (Run.execBlock p' stmts')
  | [], stmts', same => by
    cases stmts' with
    | nil => exact .refl _
    | cons _ _ => cases same
  | s :: rest, stmts', same => by
    cases stmts' with
    | nil => cases same
    | cons s' rest' =>
      obtain ⟨first, others⟩ := List.cons.inj same
      exact (agree.exec s s' first).bind fun _ => agree.execBlock rest rest' others

theorem execArms (agree : Agree ρ ρ' p p') (v : Value) (fallback fallback' : Option Failure)
    (last : fallback.map (Failure.rename ρ) = fallback'.map (Failure.rename ρ')) :
    ∀ arms arms' : List (Pattern × List Stmt), Stmt.renameArms ρ arms = Stmt.renameArms ρ' arms' →
    Run.Same (Run.execArms p v fallback arms) (Run.execArms p' v fallback' arms')
  | [], arms', same => by
    cases arms' with
    | cons _ _ => cases same
    | nil =>
      cases fallback with
      | none =>
        cases fallback' with
        | none => exact .refl _
        | some _ => cases last
      | some f =>
        cases fallback' with
        | none => cases last
        | some f' => exact agree.raise (Option.some.inj last)
  | (pattern, body) :: rest, arms', same => by
    cases arms' with
    | nil => cases same
    | cons arm' rest' =>
      obtain ⟨pattern', body'⟩ := arm'
      obtain ⟨first, others⟩ := List.cons.inj same
      obtain ⟨plain, block⟩ := Prod.mk.inj first
      simp only [Run.execArms, matchBindings_eq plain]
      split
      · exact Run.Same.then fun _ => agree.execBlock body body' block
      · exact agree.execArms v fallback fallback' last rest rest' others

end

/-- Bodies that are equal up to names have the same value. -/
theorem evalBlock (agree : Agree ρ ρ' p p') {b b' : Block} (same : b.rename ρ = b'.rename ρ') :
    Run.Same (Run.evalBlock p b) (Run.evalBlock p' b') := by
  obtain ⟨stmts, result⟩ := Block.mk.inj same
  exact (agree.execBlock _ _ stmts).bind fun _ => agree.eval _ _ result

end Program.Agree

/-! ### Calls -/

/-- How two modules of generated code read names: codecs have levels, and the renamings for a bound
keep apart the codecs from that level on. -/
structure Generated.Twins (g g' : Generated) where
  left : Nat → Renaming
  right : Nat → Renaming
  /-- A bound on the levels. -/
  height : Nat
  functions : g.functions = g'.functions
  enums : ∀ bound type type', (left bound).enum type = (right bound).enum type' →
    ∃ d d' : EnumDecl, Run.enumOf g type = pure d ∧ Run.enumOf g' type' = pure d' ∧
      d.entries = d'.entries ∧ d.backing = d'.backing
  /-- A codec that has a name below a bound is there in both modules, and its bodies are equal up to
  the names below its own level. -/
  codecs : ∀ bound codec codec', (left bound).codec codec = (right bound).codec codec' →
    codec' = codec ∧ ∃ level < bound, ∃ d d' : CodecDecl,
      g.codec? codec = some d ∧ g'.codec? codec = some d' ∧ d'.value = d.value ∧
      d.decode.rename (left level) = d'.decode.rename (right level) ∧
      Stmt.renameBlock (left level) d.encode = Stmt.renameBlock (right level) d'.encode
  /-- Calls may go as deep as the levels. -/
  room : height ≤ g.types.length ∧ height ≤ g'.types.length

theorem Generated.lt_callDepth (g : Generated) (size : Nat) : g.types.length < g.callDepth size := by
  calc g.types.length
      _ < (g.types.length + 1) * 1 := by omega
      _ ≤ g.callDepth size := Nat.mul_le_mul_left _ (by omega)

theorem Run.checkDepth_eq {g : Generated} {depth : Nat} (room : depth < g.types.length)
    (size : Nat) : Run.checkDepth g size depth = pure () := by
  funext m
  have deep := g.lt_callDepth (size + m.stream.position)
  rw [Run.checkDepth, if_pos (by omega)]
  rfl

namespace Generated.Twins

variable {g g' : Generated} (twins : Twins g g') (order : Wire.ByteOrder) (size : Nat)

/-- Calls of codecs below a bound run alike, wherever there is room for as many calls. -/
theorem agree (bound fuel fuel' depth : Nat) (enough : bound ≤ fuel) (enough' : bound ≤ fuel')
    (room : depth + bound ≤ g.types.length) (room' : depth + bound ≤ g'.types.length) :
    Program.Agree (twins.left bound) (twins.right bound) (g.programAt order size fuel depth)
      (g'.programAt order size fuel' depth) := by
  induction bound using Nat.strongRecOn generalizing fuel fuel' depth with
  | ind bound ih =>
    -- Below a codec there are only codecs of lower levels.
    have below (level : Nat) (lower : level < bound) : ∃ rest rest', fuel = rest + 1 ∧
        fuel' = rest' + 1 ∧ Program.Agree (twins.left level) (twins.right level)
          (g.programAt order size rest (depth + 1)) (g'.programAt order size rest' (depth + 1)) :=
      ⟨fuel - 1, fuel' - 1, by omega, by omega,
        ih level lower _ _ _ (by omega) (by omega) (by omega) (by omega)⟩
    have shallow (some : 0 < bound) : Run.checkDepth g size depth = pure () :=
      Run.checkDepth_eq (by omega) size
    have shallow' (some : 0 < bound) : Run.checkDepth g' size depth = pure () :=
      Run.checkDepth_eq (by omega) size
    constructor
    case order => rfl
    case functions => exact twins.functions
    case enums => exact twins.enums bound
    case decode =>
      intro codec codec' named
      obtain ⟨rfl, level, lower, d, d', found, found', _, bodies, _⟩ :=
        twins.codecs bound codec codec' named
      obtain ⟨rest, rest', rfl, rfl, inner⟩ := below _ lower
      simp only [programAt, Calls.nested, shallow (by omega), shallow' (by omega), pure_bind,
        Calls.decodeWith, found, found']
      exact Run.Same.then fun _ => (inner.evalBlock bodies).withEnv []
    case encode =>
      intro codec codec' named v
      obtain ⟨rfl, level, lower, d, d', found, found', param, _, bodies⟩ :=
        twins.codecs bound codec codec' named
      obtain ⟨rest, rest', rfl, rfl, inner⟩ := below _ lower
      simp only [programAt, Calls.nested, shallow (by omega), shallow' (by omega), pure_bind,
        Calls.encodeWith, found, found', param]
      exact Run.Same.then fun _ => (inner.execBlock _ _ bodies).withEnv _

theorem agree_program (length : Nat) :
    Program.Agree (twins.left twins.height) (twins.right twins.height) (g.program order size length)
      (g'.program order size length) := by
  have deep := g.lt_callDepth (size + length)
  have deep' := g'.lt_callDepth (size + length)
  obtain ⟨room, room'⟩ := twins.room
  exact twins.agree order size twins.height _ _ 0 (by omega) (by omega) (by omega) (by omega)

/-- Decoders that are equal up to names read the same, or fail alike. -/
theorem runDecoder {b b' : Block}
    (same : b.rename (twins.left twins.height) = b'.rename (twins.right twins.height))
    (bytes : List UInt8) : (g.runDecoder order b bytes).mapError runErrorKind =
      (g'.runDecoder order b' bytes).mapError runErrorKind := by
  have step := (twins.agree_program order 0 bytes.length).evalBlock same
    { env := [], stream := .input (.ofBytes bytes) }
  exact mapError_bind step fun _ => rfl

/-- Encoders that are equal up to names write the same, or fail alike. -/
theorem runEncoder {stmts stmts' : List Stmt}
    (same : Stmt.renameBlock (twins.left twins.height) stmts =
      Stmt.renameBlock (twins.right twins.height) stmts') (param : Local) (v : Value) :
    (g.runEncoder order param stmts v).mapError runErrorKind =
      (g'.runEncoder order param stmts' v).mapError runErrorKind := by
  have step := (twins.agree_program order v.size 0).execBlock _ _ same
    { env := .single param.id v, stream := .output [] }
  exact mapError_bind step fun _ => rfl

end Generated.Twins

end WireSchema
