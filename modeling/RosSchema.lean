import RosSchema.Bundle
import RosSchema.Canonical
import RosSchema.Cli.Arguments
import RosSchema.Cli.Run
import RosSchema.Definition
import RosSchema.Dialect
import RosSchema.Error
import RosSchema.FileTree
import RosSchema.Idl.Comment
import RosSchema.Idl.Constants
import RosSchema.Idl.Flatten
import RosSchema.Idl.Grammar
import RosSchema.Idl.Scope
import RosSchema.Idl.Section
import RosSchema.Idl.Tree
import RosSchema.Json
import RosSchema.Line.Block
import RosSchema.Line.Ros1
import RosSchema.Line.Ros2
import RosSchema.Literal.Coerce
import RosSchema.Literal.Decode
import RosSchema.Literal.Encode
import RosSchema.Literal.Escape
import RosSchema.Main
import RosSchema.Number.Binary64
import RosSchema.Number.Decimal
import RosSchema.Number.Layout
import RosSchema.Number.Numeral
import RosSchema.Number.Shortest
import RosSchema.Primitive
import RosSchema.Proofs.Bundle.BreadthFirst
import RosSchema.Proofs.Bundle.Contents
import RosSchema.Proofs.Bundle.Gather
import RosSchema.Proofs.Bundle.Loop
import RosSchema.Proofs.Bundle.SelfContained
import RosSchema.Proofs.Canonical.FixedPoint
import RosSchema.Proofs.Canonical.Identity
import RosSchema.Proofs.Canonical.Inverse
import RosSchema.Proofs.Canonical.Layout
import RosSchema.Proofs.Canonical.NormalForm
import RosSchema.Proofs.Canonical.Parsed
import RosSchema.Proofs.Canonical.Printed
import RosSchema.Proofs.Canonical.Reading
import RosSchema.Proofs.Canonical.Resolved
import RosSchema.Proofs.Canonical.Returned
import RosSchema.Proofs.Canonical.Rows
import RosSchema.Proofs.Context
import RosSchema.Proofs.Failures
import RosSchema.Proofs.FileTree.Packages
import RosSchema.Proofs.FileTree.Search
import RosSchema.Proofs.Idl.Aliases
import RosSchema.Proofs.Idl.Alike
import RosSchema.Proofs.Idl.Comments
import RosSchema.Proofs.Idl.DeclaredTypes
import RosSchema.Proofs.Idl.Dependencies
import RosSchema.Proofs.Idl.DocumentEnd
import RosSchema.Proofs.Idl.Fields
import RosSchema.Proofs.Idl.Flattening
import RosSchema.Proofs.Idl.History
import RosSchema.Proofs.Idl.Identifiers
import RosSchema.Proofs.Idl.KeywordMembers
import RosSchema.Proofs.Idl.Keywords
import RosSchema.Proofs.Idl.Names
import RosSchema.Proofs.Idl.Notation
import RosSchema.Proofs.Idl.Numerals
import RosSchema.Proofs.Idl.OneValue
import RosSchema.Proofs.Idl.Outline
import RosSchema.Proofs.Idl.Pieces
import RosSchema.Proofs.Idl.Postorder
import RosSchema.Proofs.Idl.PrintedMembers
import RosSchema.Proofs.Idl.PrintedWords
import RosSchema.Proofs.Idl.Printing
import RosSchema.Proofs.Idl.Qualified
import RosSchema.Proofs.Idl.Reordering
import RosSchema.Proofs.Idl.Sections
import RosSchema.Proofs.Idl.SingleConstant
import RosSchema.Proofs.Idl.Solution
import RosSchema.Proofs.Idl.Takes
import RosSchema.Proofs.Idl.Transparency
import RosSchema.Proofs.Idl.Walk
import RosSchema.Proofs.Idl.Written
import RosSchema.Proofs.Joined
import RosSchema.Proofs.Line.Agreement
import RosSchema.Proofs.Line.ArrayEndings
import RosSchema.Proofs.Line.Assignment
import RosSchema.Proofs.Line.BareText
import RosSchema.Proofs.Line.CanonicalLine
import RosSchema.Proofs.Line.Declaration
import RosSchema.Proofs.Line.Declared
import RosSchema.Proofs.Line.Derivation
import RosSchema.Proofs.Line.Derived
import RosSchema.Proofs.Line.DerivedLine
import RosSchema.Proofs.Line.Endings
import RosSchema.Proofs.Line.Field
import RosSchema.Proofs.Line.FieldLine
import RosSchema.Proofs.Line.FieldType
import RosSchema.Proofs.Line.Header
import RosSchema.Proofs.Line.HeaderNames
import RosSchema.Proofs.Line.Lines
import RosSchema.Proofs.Line.Row
import RosSchema.Proofs.Line.Separation
import RosSchema.Proofs.Line.Spelling
import RosSchema.Proofs.Line.StringArrays
import RosSchema.Proofs.Line.Unambiguous
import RosSchema.Proofs.Literal.Arrays
import RosSchema.Proofs.Literal.Coercion
import RosSchema.Proofs.Literal.Digits
import RosSchema.Proofs.Literal.Elements
import RosSchema.Proofs.Literal.Escapes
import RosSchema.Proofs.Literal.Failures
import RosSchema.Proofs.Literal.Integers
import RosSchema.Proofs.Literal.Lists
import RosSchema.Proofs.Literal.Quoted
import RosSchema.Proofs.Literal.RoundTrip
import RosSchema.Proofs.Literal.Scalars
import RosSchema.Proofs.Literal.Units
import RosSchema.Proofs.Literal.Words
import RosSchema.Proofs.Number.Nearest
import RosSchema.Proofs.Number.Overflow
import RosSchema.Proofs.Number.Reading
import RosSchema.Proofs.Number.Rounding
import RosSchema.Proofs.Number.Shortest
import RosSchema.Proofs.Number.Text
import RosSchema.Proofs.NumericConstants
import RosSchema.Proofs.References
import RosSchema.Proofs.Resolution
import RosSchema.Proofs.Steps
import RosSchema.Proofs.Text.ByteOrder
import RosSchema.Proofs.Text.Reading
import RosSchema.Proofs.Text.Trim
import RosSchema.Proofs.Validity.Documents
import RosSchema.Proofs.Validity.Field
import RosSchema.Proofs.Validity.Lines
import RosSchema.Proofs.Validity.Parsed
import RosSchema.Reference
import RosSchema.Schema
import RosSchema.Text.Blank
import RosSchema.Text.Printable
import RosSchema.Text.Quoted
import RosSchema.Text.Reader
import RosSchema.Value
