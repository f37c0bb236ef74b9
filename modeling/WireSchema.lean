import WireSchema.Text.Words
import WireSchema.Text.Quoted
import WireSchema.Text.Lines
import WireSchema.Text.Utf8
import WireSchema.Naming
import WireSchema.Primitive
import WireSchema.Value.Description
import WireSchema.Wire.Reader
import WireSchema.Wire.Writer
import WireSchema.Ir.Symbols
import WireSchema.Ir.Elision
import WireSchema.Shape.Slots
import WireSchema.Session.Gen
import WireSchema.Lowering.Tie
import WireSchema.Generate
import WireSchema.Document.CodeReader
import WireSchema.Document.Outcome
import WireSchema.Machine.Interpreter
import WireSchema.Source.Reading
import WireSchema.Print.Module
import WireSchema.CommandLine
import WireSchema.Main
import WireSchema.Proofs.Ir.Substitution
import WireSchema.Proofs.Ir.Uses
import WireSchema.Proofs.Machine.Probe
import WireSchema.Proofs.Machine.Isolation
import WireSchema.Proofs.Elision.Frames
import WireSchema.Proofs.Elision.Inlining
import WireSchema.Proofs.Elision.Refinement
import WireSchema.Proofs.Elision.Passes
import WireSchema.Proofs.Elision.Meaning
import WireSchema.Proofs.Machine.Locality
import WireSchema.Proofs.Elision.Safety
import WireSchema.Proofs.Layout.Reading
import WireSchema.Proofs.Layout.WellFormed
import WireSchema.Proofs.Session.Runs
import WireSchema.Proofs.Session.Growth
import WireSchema.Proofs.Decoding.Fragments
import WireSchema.Proofs.Lowering.Registering
import WireSchema.Proofs.Source.Lexing
import WireSchema.Proofs.Source.Parsing
import WireSchema.Proofs.Source.Productions
import WireSchema.Proofs.Decoding.Mirrors
import WireSchema.Proofs.Elision.Scoping
import WireSchema.Proofs.Machine.Relation
import WireSchema.Proofs.Session.Names
import WireSchema.Proofs.Session.Signatures
import WireSchema.Proofs.Shape.Unfolding
import WireSchema.Proofs.Source.Assembling
import WireSchema.Proofs.Source.Building
import WireSchema.Proofs.Source.Cycles
import WireSchema.Proofs.Source.Formed
import WireSchema.Proofs.Source.Identifiers
import WireSchema.Proofs.Source.Inversion
import WireSchema.Proofs.Source.Spelling
import WireSchema.Proofs.Source.Written
import WireSchema.Proofs.Wire.Forms
import WireSchema.Proofs.Wire.Locality
import WireSchema.Proofs.Generation.Completeness
import WireSchema.Proofs.Generation.Coupling
import WireSchema.Proofs.Generation.SameWire
import WireSchema.Proofs.Elision.Hygiene
import WireSchema.Proofs.Generation.Hygiene
import WireSchema.Proofs.Generation.Numbering
import WireSchema.Proofs.Source.Reordering
import WireSchema.Proofs.Shape.Regrouping
import WireSchema.Proofs.Session.Regrouping
import WireSchema.Proofs.Lowering.Regrouping
import WireSchema.Proofs.Generation.Regrouping
import WireSchema.Proofs.Source.Regrouping
import WireSchema.Proofs.Generation.Naming
import WireSchema.Proofs.Lowering.Selection
import WireSchema.Proofs.Machine.Arithmetic
import WireSchema.Proofs.Wire.Integers
import WireSchema.Proofs.Machine.Transfer
import WireSchema.Proofs.Session.Ownership
import WireSchema.Proofs.Session.Progress
import WireSchema.Proofs.Lowering.Carriage
import WireSchema.Proofs.Lowering.BitGroups
import WireSchema.Proofs.Lowering.Packing
import WireSchema.Proofs.Elision.Retention
import WireSchema.Proofs.Lowering.Guards
import WireSchema.Proofs.Lowering.Flags
import WireSchema.Proofs.Lowering.Overlap
import WireSchema.Proofs.Lowering.Collections
import WireSchema.Proofs.Ir.ReplacedUses
import WireSchema.Proofs.Elision.NormalForm
import WireSchema.Proofs.Lowering.Exhaustive
import WireSchema.Proofs.Shape.Weight
import WireSchema.Proofs.Lowering.SlotDiscipline
import WireSchema.Proofs.Generation.Termination
import WireSchema.Proofs.Source.Escapes
import WireSchema.Proofs.Text.Casing
import WireSchema.Proofs.Text.Nesting
import WireSchema.Proofs.Shape.Members
import WireSchema.Proofs.Session.Spelling
import WireSchema.Proofs.Elision.Constructions
import WireSchema.Proofs.Session.Provenance
import WireSchema.Proofs.Session.Tracking
import WireSchema.Proofs.Lowering.Members
import WireSchema.Proofs.Lowering.Construction
import WireSchema.Proofs.Lowering.Projection
import WireSchema.Proofs.Source.Members
import WireSchema.Proofs.Generation.Members
import WireSchema.Proofs.Text.Utf8
import WireSchema.Proofs.Wire.Groups
import WireSchema.Proofs.Wire.Primitives
import WireSchema.Proofs.Session.Balance
import WireSchema.Proofs.Lowering.Balance
import WireSchema.Proofs.Session.Events
import WireSchema.Proofs.Session.Scripts
import WireSchema.Proofs.Generation.Imports
import WireSchema.Proofs.Generation.Agreement
import WireSchema.Proofs.Generation.RoundTrip
