import CodeBlocks.Block.Basic
import CodeBlocks.Block.Json
import CodeBlocks.CommandLine.Arguments
import CodeBlocks.CommandLine.Outcome
import CodeBlocks.Config
import CodeBlocks.Document
import CodeBlocks.Error
import CodeBlocks.Files
import CodeBlocks.Grammar
import CodeBlocks.Json.Basic
import CodeBlocks.Json.Reader
import CodeBlocks.Language
import CodeBlocks.Locate
import CodeBlocks.Number.Binary64
import CodeBlocks.Number.Layout
import CodeBlocks.Number.Shortest
import CodeBlocks.Outline
import CodeBlocks.ParseTree.Basic
import CodeBlocks.ParseTree.Cursor
import CodeBlocks.ParseTree.Listing
import CodeBlocks.Parser.Basic
import CodeBlocks.Parser.Run
import CodeBlocks.Parser.Step
import CodeBlocks.Path
import CodeBlocks.Point
import CodeBlocks.RecencyCache
import CodeBlocks.Service
import CodeBlocks.Signature
import CodeBlocks.SyntaxTree.Basic
import CodeBlocks.SyntaxTree.Flatten
import CodeBlocks.SyntaxTree.Search
import CodeBlocks.Taxonomy.Basic
import CodeBlocks.Taxonomy.Kinds
import CodeBlocks.Text.Bytes
import CodeBlocks.Text.Lines
import CodeBlocks.TextRange
import CodeBlocks.Toml.Basic
import CodeBlocks.Toml.Quoted
import CodeBlocks.Toml.Reader
import CodeBlocks.Toml.Scalar
import CodeBlocks.Trim
import CodeBlocks.Word
import CodeBlocks.Main
import CodeBlocks.Proofs.Document
import CodeBlocks.Proofs.RecencyCache.Entries
import CodeBlocks.Proofs.Parser.Invariant
import CodeBlocks.Proofs.Parser.Transparency
import CodeBlocks.Proofs.SyntaxTree.Arena
import CodeBlocks.Proofs.SyntaxTree.Flattening
import CodeBlocks.Proofs.Text.Cut
import CodeBlocks.Proofs.Trim.Boundary
import CodeBlocks.Proofs.SyntaxTree.Links
import CodeBlocks.Proofs.SyntaxTree.Descent
import CodeBlocks.Proofs.SyntaxTree.Deepest
import CodeBlocks.Proofs.Locate.Offset
import CodeBlocks.Proofs.Point
import CodeBlocks.Proofs.SyntaxTree.Subtrees
import CodeBlocks.Proofs.SyntaxTree.Scan
import CodeBlocks.Proofs.Parser.Lifecycle
import CodeBlocks.Proofs.Parser.Loads
import CodeBlocks.Proofs.Number.Rounding
import CodeBlocks.Proofs.RecencyCache.Operations
import CodeBlocks.Proofs.RecencyCache.Recency
import CodeBlocks.Proofs.RecencyCache.Limit
import CodeBlocks.Proofs.SyntaxTree.Navigation
import CodeBlocks.Proofs.Locate.Listing
import CodeBlocks.Proofs.Service.Runs
import CodeBlocks.Proofs.Service.Registry
import CodeBlocks.Proofs.Parser.Refusal
import CodeBlocks.Proofs.Service.Liveness
import CodeBlocks.Proofs.Trim.CleanRun
import CodeBlocks.Proofs.Trim.Guarded
import CodeBlocks.Proofs.Trim.Floor
import CodeBlocks.Proofs.Parser.Deliveries
import CodeBlocks.Proofs.RecencyCache.Latest
import CodeBlocks.Proofs.Parser.Hits
import CodeBlocks.Proofs.Text.Points
import CodeBlocks.Proofs.Text.Halves
import CodeBlocks.Proofs.SyntaxTree.Coordinates
import CodeBlocks.Proofs.Locate.Placement
import CodeBlocks.Proofs.Locate.Range
import CodeBlocks.Proofs.Locate.Covering
import CodeBlocks.Proofs.Locate.ErrorFree
import CodeBlocks.Proofs.Locate.Dialect
import CodeBlocks.Proofs.CommandLine.Settings
import CodeBlocks.Proofs.Parser.InLine
import CodeBlocks.Proofs.Parser.FirstUse
