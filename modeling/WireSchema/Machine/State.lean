import WireSchema.Generated
import WireSchema.Machine.Env
import WireSchema.RunError
import WireSchema.Wire.Reader

/-!
# The state of a run

A run either reads from a byte string or appends to one. Besides the bindings and the stream it
keeps what it did to the outside: reads, writes and calls, the latest first.
-/

namespace WireSchema

open Ir

/-- What a run does besides setting bindings. -/
inductive Event where
  | read (p : Primitive) (v : Value)
  | write (p : Primitive) (v : Value)
  /-- A codec is called to read. -/
  | enterDecoder (codec : String)
  /-- A codec is called to write a value. -/
  | enterEncoder (codec : String) (v : Value)
  | call (path : String) (args : List Value)

/-- The bytes that a run works on. -/
inductive Stream where
  /-- A decoder reads from here. -/
  | input (reader : Wire.Reader)
  /-- An encoder has written this, the latest byte first. -/
  | output (latest : List UInt8)

/-- What an encoder has written. -/
def Stream.written : Stream → List UInt8
  | .input _ => []
  | .output latest => latest.reverse

structure Machine where
  env : Env
  stream : Stream
  /-- What the run has done, the latest first. -/
  events : List Event := []

/-- A step of a run: it yields a value and the next state, or fails. -/
abbrev Run := StateT Machine (Except RunError)

namespace Run

/-- Notes an event. -/
def note (e : Event) : Run Unit :=
  modify fun m => { m with events := e :: m.events }

/-- The value of a binding. -/
def valueOf (x : Local) : Run Value := do
  match (← get).env.get? x.id with
  | some v => return v
  | none => throw (.unbound x.name)

/-- Sets a binding. -/
def bind (x : Local) (v : Value) : Run Unit :=
  modify fun m => { m with env := m.env.set x.id v }

/-- Runs `act` on bindings of its own, then goes on with the present ones. -/
def withEnv {α : Type} (env : Env) (act : Run α) : Run α := do
  let outer := (← get).env
  modify fun m => { m with env }
  let out ← act
  modify fun m => { m with env := outer }
  return out

/-- Reads a primitive; only a decoder can. -/
def read (order : Wire.ByteOrder) (p : Primitive) : Run Value := do
  match (← get).stream with
  | .output _ => throw (.shape "decode context" "encode context")
  | .input reader =>
    match (Wire.read order p).run reader with
    | (.error cause, _) => throw (.decode cause)
    | (.ok v, reader) =>
      modify fun m => { m with stream := .input reader }
      note (.read p v)
      return v

/-- Writes a primitive; only an encoder can. -/
def write (order : Wire.ByteOrder) (p : Primitive) (v : Value) : Run Unit := do
  match (← get).stream with
  | .input _ => throw (.shape "encode context" "decode context")
  | .output latest =>
    match Wire.write order p v with
    | .error cause => throw (.ofWrite cause)
    | .ok more =>
      modify fun m => { m with stream := .output (more.reverseAux latest) }
      note (.write p v)

/-- Adds a value to the end of a collection that a binding holds. -/
def push (x : Local) (v : Value) : Run Unit := do
  match (← get).env.cell? x.id with
  | none => throw (.unbound x.name)
  | some c =>
    match c.push v with
    | .ok c => modify fun m => { m with env := m.env.put x.id c }
    | .error e => throw e

/-- Calls a host function. A failure counts as one of decoding if the code calls it fallible. -/
def callHost (g : Generated) (path : String) (args : List Value) (fallible : Bool) :
    Run Value := do
  match g.functions.lookup path with
  | none => throw (.unknownFunction path)
  | some f =>
    note (.call path args)
    match f args with
    | .ok v => return v
    | .error message =>
      throw (if fallible then .decode (.transform path message)
        else .encode (.transform path message))

/-- Runs `act` the given number of times. -/
def times (act : Run Unit) : Nat → Run Unit
  | 0 => return
  | count + 1 => do
    act
    times act count

/-- Runs `act` on each item in turn. -/
def forEach {α : Type} (act : α → Run Unit) : List α → Run Unit
  | [] => return
  | item :: rest => do
    act item
    forEach act rest

end Run

end WireSchema
