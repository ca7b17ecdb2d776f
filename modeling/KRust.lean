import KRust.Backend.Allocate
import KRust.Backend.AllocateLaws
import KRust.Backend.Apart
import KRust.Backend.ApartLaws
import KRust.Backend.Attributes
import KRust.Backend.Comparison
import KRust.Backend.ComparisonLaws
import KRust.Backend.ComparisonLoops
import KRust.Backend.Compose
import KRust.Backend.DenseBelow
import KRust.Backend.DerivedOrder
import KRust.Backend.ExplorationMerge
import KRust.Backend.ExplorationMergeLaws
import KRust.Backend.Extraction
import KRust.Backend.FreeParts
import KRust.Backend.Fresh
import KRust.Backend.ItemSeeks
import KRust.Backend.ItemSummary
import KRust.Backend.ListHooks
import KRust.Backend.ListHooksLaws
import KRust.Backend.ListImplication
import KRust.Backend.ListImplicationLaws
import KRust.Backend.ListSegments
import KRust.Backend.MintedNames
import KRust.Backend.MintedNamesLaws
import KRust.Backend.Names
import KRust.Backend.Normal
import KRust.Backend.Order
import KRust.Backend.OrderCollection
import KRust.Backend.Rebuild
import KRust.Backend.SortGraph
import KRust.Backend.SortOrder
import KRust.Backend.SortOrderLaws
import KRust.Backend.SubstituteItems
import KRust.Backend.Substitution
import KRust.Backend.TaintClosureLaws
import KRust.Builtin.Base
import KRust.Builtin.BaseLaws
import KRust.Builtin.BigInts
import KRust.Builtin.Bytes
import KRust.Builtin.BytesLaws
import KRust.Builtin.Hooks
import KRust.Builtin.Mint
import KRust.Builtin.MintLaws
import KRust.Builtin.MintWords
import KRust.Builtin.Search
import KRust.Builtin.SearchLaws
import KRust.Definition.CycleSearch
import KRust.Definition.PartialOrder
import KRust.Definition.PartialOrderLaws
import KRust.Domain.CanonicalLaws
import KRust.Domain.IntegerText
import KRust.Domain.IntegerTextLaws
import KRust.Domain.Kind
import KRust.Domain.String
import KRust.Domain.StringLaws
import KRust.Inner.Agenda
import KRust.Inner.AgendaLaws
import KRust.Inner.CycleFlags
import KRust.Inner.Cycles
import KRust.Inner.CyclesLaws
import KRust.Inner.Forest
import KRust.Inner.ForestLaws
import KRust.Inner.Prediction
import KRust.Inner.PredictionLaws
import KRust.Inner.ReadingOverlap
import KRust.Inner.ReadingOverlapLaws
import KRust.Json.Fields
import KRust.Json.Standard
import KRust.Json.Tree
import KRust.Json.TreeLaws
import KRust.Json.Write
import KRust.Kast.Ast
import KRust.Kast.Identifier
import KRust.Kast.IdentifierLaws
import KRust.Kast.Json
import KRust.Kast.JsonLaws
import KRust.Kast.RoundTrip
import KRust.Kompile.FreshNames
import KRust.Kompile.GatherLaws
import KRust.Kompile.IdentityLaws
import KRust.Kompile.MinimizeTerms
import KRust.Kompile.MinimizeTermsLaws
import KRust.Kore.Associate
import KRust.Kore.AssociateLaws
import KRust.Kore.Ast
import KRust.Kore.BinaryLength
import KRust.Kore.BinaryLengthLaws
import KRust.Kore.Document
import KRust.Kore.FreeVariables
import KRust.Kore.FreeVariablesLaws
import KRust.Kore.Grammar
import KRust.Kore.Lexer
import KRust.Kore.Literal
import KRust.Kore.LiteralAgreement
import KRust.Kore.LiteralLaws
import KRust.Kore.Order
import KRust.Kore.OrderLaws
import KRust.Kore.Parser
import KRust.Kore.ParserImage
import KRust.Kore.ParserLaws
import KRust.Kore.Printer
import KRust.Kore.PrinterLaws
import KRust.Kore.RoundTrip
import KRust.Kore.StreamedDocument
import KRust.Kore.Walk
import KRust.Lib.Binding
import KRust.Lib.Buckets
import KRust.Lib.Clauses
import KRust.Lib.CodeUnits
import KRust.Lib.Continuation
import KRust.Lib.Counting
import KRust.Lib.Decimal
import KRust.Lib.DepthFirst
import KRust.Lib.Derivations
import KRust.Lib.DisjointSums
import KRust.Lib.Equations
import KRust.Lib.FiniteRelation
import KRust.Lib.Frontier
import KRust.Lib.KeyedCounts
import KRust.Lib.Machine
import KRust.Lib.Memo
import KRust.Lib.Numbering
import KRust.Lib.Occurrences
import KRust.Lib.Partial
import KRust.Lib.PolyHash
import KRust.Lib.Propagation
import KRust.Lib.Radix
import KRust.Lib.Spreading
import KRust.Lib.StableSort
import KRust.Lib.TreeOrder
import KRust.Lib.TwosComplement
import KRust.Lib.Utf8Ranges
import KRust.Lib.Worklist
import KRust.Regex.Ast
import KRust.Regex.ClassLaws
import KRust.Regex.ClassPrinter
import KRust.Regex.Classes
import KRust.Regex.Parser
import KRust.Regex.Printer
import KRust.Regex.RoundTrip
import KRust.Rpc.Framing
import KRust.Rpc.FramingAccepts
import KRust.Rpc.FramingGrammar
import KRust.Rpc.FramingLaws
import KRust.Rpc.FramingReads
import KRust.Rpc.FramingResume
import KRust.Rpc.Session
import KRust.Rpc.SessionLaws
import KRust.Rpc.SessionSafety
import KRust.Term.Chunks.AddLaws
import KRust.Term.Chunks.AlignedPairs
import KRust.Term.Chunks.Compare
import KRust.Term.Chunks.CompareLaws
import KRust.Term.Chunks.Cut
import KRust.Term.Chunks.Edit
import KRust.Term.Chunks.EditLaws
import KRust.Term.Chunks.Incremental
import KRust.Term.Chunks.Invariant
import KRust.Term.Chunks.Iteration
import KRust.Term.Chunks.JoinLaws
import KRust.Term.Chunks.Keyed
import KRust.Term.Chunks.KeyedLaws
import KRust.Term.Chunks.Lookup
import KRust.Term.Chunks.Multiset
import KRust.Term.Chunks.MultisetLaws
import KRust.Term.Chunks.Node
import KRust.Term.Chunks.Positional
import KRust.Term.Chunks.Rebuild
import KRust.Term.Chunks.ReduceLaws
import KRust.Term.Chunks.Repeat
import KRust.Term.Chunks.Root
import KRust.Term.Chunks.Seek
import KRust.Term.Chunks.SeekLaws
import KRust.Term.Chunks.Sought
import KRust.Term.Chunks.Summary
import KRust.Term.Chunks.SummaryLaws
import KRust.Term.Chunks.Union
import KRust.Term.Chunks.Variables
import KRust.Term.Chunks.VariablesLaws
import KRust.Term.Chunks.Walk
import KRust.Term.Chunks.WalkLaws
