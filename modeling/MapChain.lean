import MapChain.Association
import MapChain.CacheKey
import MapChain.CommandLine.Arguments
import MapChain.CommandLine.Run
import MapChain.CommandLine.Snapshot
import MapChain.Compiler.Compile
import MapChain.Compiler.CompileError
import MapChain.Compiler.Diagnostic
import MapChain.Compiler.Worker
import MapChain.Compose.Chain
import MapChain.Compose.Relocate
import MapChain.Config.Error
import MapChain.Config.Extends
import MapChain.Config.Lenient
import MapChain.Config.Merge
import MapChain.Config.Options
import MapChain.Config.Resolve
import MapChain.Downstream.Error
import MapChain.Downstream.Result
import MapChain.Downstream.Worker
import MapChain.Files.FileSystem
import MapChain.Files.Path
import MapChain.Hash.Blake3
import MapChain.Json.Equality
import MapChain.Json.Number
import MapChain.Json.Path
import MapChain.Json.Quoted
import MapChain.Json.Reader
import MapChain.Json.Shape
import MapChain.Json.Token
import MapChain.Json.Tree
import MapChain.Json.Value
import MapChain.Main
import MapChain.Number.Binary64
import MapChain.Number.Shortest
import MapChain.Pipeline
import MapChain.SourceMap.Builder
import MapChain.SourceMap.Document
import MapChain.SourceMap.Error
import MapChain.SourceMap.Identity
import MapChain.SourceMap.Lookup
import MapChain.SourceMap.MappingText
import MapChain.SourceMap.Position
import MapChain.SourceMap.Tuple
import MapChain.SourceMap.Vlq
import MapChain.Text.Lines
import MapChain.Text.Lossy
import MapChain.Text.Placeholder
import MapChain.Text.Units
import MapChain.Text.Whitespace
import MapChain.Worker.Error
import MapChain.Worker.Node
import MapChain.Worker.Process
import MapChain.Worker.Script
import MapChain.Worker.Session
import MapChain.Proofs.Builder.RoundTrip
import MapChain.Proofs.Builder.Tables
import MapChain.Proofs.Bytes
import MapChain.Proofs.Compose.Document
import MapChain.Proofs.Compose.Lookups
import MapChain.Proofs.Compose.Mappings
import MapChain.Proofs.Compose.Tuples
import MapChain.Proofs.Config.Cycles
import MapChain.Proofs.Config.Layers
import MapChain.Proofs.Config.Tree
import MapChain.Proofs.Identity.Compose
import MapChain.Proofs.Json.Fields
import MapChain.Proofs.Json.Lexing
import MapChain.Proofs.Json.Path
import MapChain.Proofs.Json.Sorted
import MapChain.Proofs.Json.TreeTokens
import MapChain.Proofs.Lenient.Commas
import MapChain.Proofs.Lenient.Comments
import MapChain.Proofs.Lenient.Documents
import MapChain.Proofs.Lookup.Closest
import MapChain.Proofs.Lookup.Decoded
import MapChain.Proofs.MappingText.Characters
import MapChain.Proofs.MappingText.Grammar
import MapChain.Proofs.MappingText.Number
import MapChain.Proofs.MappingText.Pieces
import MapChain.Proofs.MappingText.Reading
import MapChain.Proofs.MappingText.RoundTrip
import MapChain.Proofs.Relocate.Points
import MapChain.Proofs.Pipeline.Calls
import MapChain.Proofs.SourceMap.Spelling
import MapChain.Proofs.Compose.Results
import MapChain.Proofs.Compiler.Locations
import MapChain.Proofs.Worker.Sessions
import MapChain.Proofs.Json.NumberText
import MapChain.Proofs.Json.Compact
import MapChain.Proofs.Json.SameDocument
import MapChain.Proofs.CacheKey
import MapChain.Proofs.Compose.Wire
import MapChain.Proofs.Downstream.MapText
import MapChain.Proofs.Files.Walking
import MapChain.Proofs.Files.Ancestors
import MapChain.Proofs.Config.Packages
import MapChain.Proofs.MappingText.Faults
import MapChain.Proofs.MappingText.Overflow
import MapChain.Proofs.MappingText.Consecutive
import MapChain.Proofs.Lookup.Reordered
import MapChain.Proofs.Lookup.Tables
import MapChain.Proofs.Compiler.Spans
import MapChain.Proofs.Text.Lines
import MapChain.Proofs.Identity.Tokens
import MapChain.Proofs.SourceMap.TupleShape
import MapChain.Proofs.SourceMap.DocumentText
import MapChain.Proofs.Builder.FirstUses
import MapChain.Proofs.Lookup.Contents
import MapChain.Proofs.Compiler.FirstError
import MapChain.Proofs.Compiler.Messages
import MapChain.Proofs.Pipeline.Arguments
import MapChain.Proofs.Config.Forced
import MapChain.Proofs.Files.Entries
import MapChain.Proofs.Worker.Scripts
