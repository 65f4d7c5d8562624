import NodeShader.Catalogue
import NodeShader.Catalogue.Arithmetic
import NodeShader.Catalogue.Basic
import NodeShader.Catalogue.Colour
import NodeShader.Catalogue.Custom
import NodeShader.Catalogue.Loop
import NodeShader.Catalogue.Noise
import NodeShader.Catalogue.Shape
import NodeShader.Catalogue.Source
import NodeShader.Catalogue.Terminal
import NodeShader.Catalogue.Vector
import NodeShader.Catalogue.Wave
import NodeShader.CommandLine
import NodeShader.Dict
import NodeShader.Distinct
import NodeShader.Draft
import NodeShader.Fault
import NodeShader.Formula.Basic
import NodeShader.Formula.Lexer
import NodeShader.Formula.Parser
import NodeShader.Formula.Printer
import NodeShader.Formula.Token
import NodeShader.Functions
import NodeShader.Glsl.Identifier
import NodeShader.Glsl.Literal
import NodeShader.Glsl.Type
import NodeShader.Graph.Basic
import NodeShader.Graph.Document
import NodeShader.Json.Basic
import NodeShader.Json.Document
import NodeShader.Json.Numeral
import NodeShader.Json.Param
import NodeShader.Json.Reader
import NodeShader.Main
import NodeShader.NodeType.Basic
import NodeShader.NodeType.Recipe
import NodeShader.NodeType.Site
import NodeShader.Number.Binary
import NodeShader.Number.Power
import NodeShader.Number.Rounding
import NodeShader.Proofs.Appearance
import NodeShader.Proofs.Arguments
import NodeShader.Proofs.Canonical
import NodeShader.Proofs.Capture
import NodeShader.Proofs.Catalogue
import NodeShader.Proofs.Compatibility
import NodeShader.Proofs.Contract
import NodeShader.Proofs.CustomFunctions
import NodeShader.Proofs.Cycle
import NodeShader.Proofs.Decimals
import NodeShader.Proofs.Degradation
import NodeShader.Proofs.Dependency
import NodeShader.Proofs.Diagnosis
import NodeShader.Proofs.Digits
import NodeShader.Proofs.Distinctness
import NodeShader.Proofs.Expansion
import NodeShader.Proofs.Expression
import NodeShader.Proofs.Extent
import NodeShader.Proofs.Formula.Balance
import NodeShader.Proofs.Formula.Blame
import NodeShader.Proofs.Formula.Derivation
import NodeShader.Proofs.Formula.Grammar
import NodeShader.Proofs.Formula.Grouping
import NodeShader.Proofs.Formula.Layout
import NodeShader.Proofs.Formula.Levels
import NodeShader.Proofs.Formula.Numeral
import NodeShader.Proofs.Formula.Printing
import NodeShader.Proofs.Formula.Reading
import NodeShader.Proofs.Formula.Retracing
import NodeShader.Proofs.Formula.RoundTrip
import NodeShader.Proofs.Formula.Spelling
import NodeShader.Proofs.Formula.Substitution
import NodeShader.Proofs.Formula.Tree
import NodeShader.Proofs.Functions
import NodeShader.Proofs.GraphDocument
import NodeShader.Proofs.Headers
import NodeShader.Proofs.Identifier
import NodeShader.Proofs.Inlets
import NodeShader.Proofs.Instances
import NodeShader.Proofs.Iterations
import NodeShader.Proofs.Locality
import NodeShader.Proofs.LoopSearch
import NodeShader.Proofs.Memo
import NodeShader.Proofs.Naming
import NodeShader.Proofs.Nesting
import NodeShader.Proofs.Order
import NodeShader.Proofs.Outcome
import NodeShader.Proofs.Precision
import NodeShader.Proofs.Reads
import NodeShader.Proofs.Record
import NodeShader.Proofs.Safety
import NodeShader.Proofs.Shape
import NodeShader.Proofs.Signature
import NodeShader.Proofs.Symbols
import NodeShader.Proofs.Threading
import NodeShader.Proofs.Underscores
import NodeShader.Proofs.Verdict
import NodeShader.Proofs.Wiring
import NodeShader.Schedule
import NodeShader.Scope
import NodeShader.Settings
import NodeShader.Shader
import NodeShader.Text.Blank
import NodeShader.Text.Lines
import NodeShader.Unroll
import NodeShader.Workshop
