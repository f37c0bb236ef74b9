import WireSchema.Session.Gen

/-!
# Emitters

An emitter generates the code of any shape. Each kind of shape is generated with the help of an
emitter for the shapes it refers to, so the rules of the other modules take one as an argument; they
are tied together at the end.
-/

namespace WireSchema.Lowering

open Ir

/-- What can be generated for a shape. -/
structure Emitter where
  /-- The type of the values, with all declarations that it needs. -/
  typeExpr : Shape → Gen TypeExpr
  /-- All declarations and codecs within a shape. -/
  prepare : Shape → Gen Unit
  /-- An expression that decodes a value; supporting statements are emitted before. -/
  decodeExpr : Shape → Gen Expr
  /-- A binding for every field of a struct, in the order of the wire; gives those of the stored
  fields. -/
  decodeBindings : Shape → Gen (List (String × Local))
  /-- Emits the statements that write a value. -/
  encode : Shape → Expr → Gen Unit
  /-- Emits the statements that write the fields of a struct. -/
  encodeFields : Shape → Expr → Gen Unit

/-- An emitter that has reached the limit of its depth. -/
def Emitter.exhausted : Emitter where
  typeExpr _ := throw .tooDeep
  prepare _ := throw .tooDeep
  decodeExpr _ := throw .tooDeep
  decodeBindings _ := throw .tooDeep
  encode _ _ := throw .tooDeep
  encodeFields _ _ := throw .tooDeep

/-- What a hook of a packet sees of it. -/
structure PacketShape where
  /-- The name of the struct. -/
  type : String
  fields : List Field

/-- The code that hooks generate, by the text that identifies a hook. -/
structure Hooks where
  /-- Decodes a value of a custom shape. -/
  decode : String → Emitter → Gen Expr
  /-- Writes a value of a custom shape. -/
  encode : String → Emitter → Expr → Gen Unit
  /-- Decodes a packet. -/
  decodePacket : String → Emitter → PacketShape → Gen Expr
  /-- Writes a packet. -/
  encodePacket : String → Emitter → PacketShape → Expr → Gen Unit

/-- No hooks: every use of one fails. -/
def Hooks.none : Hooks where
  decode name _ := throw (.hook ("unknown hook " ++ name))
  encode name _ _ := throw (.hook ("unknown hook " ++ name))
  decodePacket name _ _ := throw (.hook ("unknown hook " ++ name))
  encodePacket name _ _ _ := throw (.hook ("unknown hook " ++ name))

/-- What messages call the struct of a slot that stands outside of it. -/
def groupOwner (group : Nat) : String := s!"bit group {group}"

end WireSchema.Lowering
