import WireSchema.Lowering.Decoding
import WireSchema.Lowering.Encoding

/-!
# The emitter of all shapes

The rules for the kinds of shape, tied together. Shapes can refer to each other without end, so an
emitter has a depth; beyond it generation fails.
-/

namespace WireSchema.Lowering

/-- The emitter that goes down `depth` levels. -/
def emitter (hooks : Hooks) : Nat → Emitter
  | 0 => Emitter.exhausted
  | depth + 1 =>
    { typeExpr := fun s => typeExpr (emitter hooks depth) s
      prepare := fun s => prepare (emitter hooks depth) s
      decodeExpr := fun s => decodeExpr hooks (emitter hooks depth) s
      decodeBindings := fun s => decodeBindings (emitter hooks depth) s
      encode := fun s src => encode hooks (emitter hooks depth) s src
      encodeFields := fun s src => encodeFields (emitter hooks depth) s src }

/-- A depth that is enough for shapes of the given weight. On the way down no shape comes back in
the same role before another declaration is begun, and each shape is declared once. -/
def depthFor (weight : Nat) : Nat := 8 * (weight + 2) * (weight + 2)

end WireSchema.Lowering
