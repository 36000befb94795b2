import CommonLut.Main
import CommonLut.Node.Equality
import CommonLut.Proofs.Outcome
import CommonLut.Proofs.Runs
import CommonLut.Proofs.Chunks
import CommonLut.Proofs.Gzip
import CommonLut.Proofs.Store
import CommonLut.Proofs.Text.Words
import CommonLut.Proofs.Text.Digits
import CommonLut.Proofs.Binary.Patterns
import CommonLut.Proofs.Binary.Rounding
import CommonLut.Proofs.Binary.Widening
import CommonLut.Proofs.Binary.Narrowing
import CommonLut.Proofs.Binary.Machine
import CommonLut.Proofs.Binary.Magnitude
import CommonLut.Proofs.Text.Shortest
import CommonLut.Proofs.Text.Numeral
import CommonLut.Proofs.SampleEncoding
import CommonLut.Proofs.Markup.Trees
import CommonLut.Proofs.Markup.Escape
import CommonLut.Proofs.Markup.RoundTrip
import CommonLut.Proofs.Markup.Parse
import CommonLut.Proofs.Lookup.ArrayElement
import CommonLut.Proofs.Lookup.SampleValues
import CommonLut.Proofs.Lookup.Recoding
import CommonLut.Proofs.Markup.Access
import CommonLut.Proofs.Lookup.IndexMap
import CommonLut.Proofs.Node.Common
import CommonLut.Proofs.Node.Schema
import CommonLut.Proofs.Operator.Grades
import CommonLut.Proofs.Operator.Curves
import CommonLut.Proofs.Operator.Tables
import CommonLut.Proofs.Operator.Errors
import CommonLut.Proofs.Node.Kinds
import CommonLut.Proofs.Node.Profiles
import CommonLut.Proofs.Node.Reading
import CommonLut.Proofs.Node.Lookups
import CommonLut.Proofs.Node.Features
import CommonLut.Proofs.Node.Equality
import CommonLut.Proofs.Node.ReadBack
import CommonLut.Proofs.Node.Targets
import CommonLut.Proofs.Node.Flatten
import CommonLut.Proofs.Document.Lists
import CommonLut.Proofs.Node.Buffers
import CommonLut.Proofs.Command.Values
import CommonLut.Proofs.Document.Bytes
import CommonLut.Proofs.Document.Lookups
import CommonLut.Proofs.Node.Inlining
import CommonLut.Proofs.Node.Chain
import CommonLut.Proofs.Node.Recoding
import CommonLut.Proofs.Document.SelfContained
import CommonLut.Proofs.Document.Profiles
import CommonLut.Proofs.Node.Bypass
import CommonLut.Proofs.Document.Equality
import CommonLut.Proofs.Document.Degradation
import CommonLut.Proofs.Document.Nesting
import CommonLut.Proofs.Checked.Lookup
import CommonLut.Proofs.Checked.Nodes
import CommonLut.Proofs.Document.Evaluation
import CommonLut.Proofs.Document.Saving
import CommonLut.Proofs.Document.Recoding
import CommonLut.Proofs.Command.Conversion
import CommonLut.Proofs.Command.Reading
import CommonLut.Proofs.Command.Chunking
import CommonLut.Proofs.Binary.Order
import CommonLut.Proofs.Binary.Nearest
import CommonLut.Proofs.Binary.Comparison
import CommonLut.Proofs.Binary.Value
import CommonLut.Proofs.Binary.Underflow
import CommonLut.Proofs.Binary.Half
import CommonLut.Proofs.Lookup.HalfDomain
import CommonLut.Proofs.Exact
import CommonLut.Proofs.Lookup.Lattice
import CommonLut.Proofs.Lookup.Interpolation
import CommonLut.Proofs.Lookup.Segments
import CommonLut.Proofs.Lookup.Rows
import CommonLut.Proofs.Lookup.BreakpointOrder
import CommonLut.Proofs.Lookup.BreakpointSearch
import CommonLut.Proofs.Lookup.Tabulation
import CommonLut.Proofs.SampleWidths
import CommonLut.Proofs.Binary.Closest
import CommonLut.Proofs.Lookup.HalfSamples
import CommonLut.Proofs.Lookup.ArrayShape
import CommonLut.Proofs.Document.ColorCorrection
import CommonLut.Proofs.Operator.AffineMap
import CommonLut.Proofs.Operator.Remapping
import CommonLut.Proofs.Powers
import CommonLut.Proofs.Operator.GradeInverse
import CommonLut.Proofs.Operator.MonitorCurve
import CommonLut.Proofs.Operator.ReverseStyles
import CommonLut.Proofs.Markup.References
import CommonLut.Proofs.Node.ExtraChannels
import CommonLut.Proofs.Document.Insertion
import CommonLut.Proofs.Document.Reloading
