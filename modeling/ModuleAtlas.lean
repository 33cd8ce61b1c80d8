import ModuleAtlas.Text.Split
import ModuleAtlas.Text.Blank
import ModuleAtlas.Text.Utf8
import ModuleAtlas.Path
import ModuleAtlas.Glob
import ModuleAtlas.Json
import ModuleAtlas.Json.Reader
import ModuleAtlas.Text.Printable
import ModuleAtlas.Text.Quoted
import ModuleAtlas.Dialect
import ModuleAtlas.Module
import ModuleAtlas.OrderedMap
import ModuleAtlas.Graph.Basic
import ModuleAtlas.Graph.Search
import ModuleAtlas.Graph.Build
import ModuleAtlas.Decimal.Binary64
import ModuleAtlas.Report
import ModuleAtlas.Graph.Export
import ModuleAtlas.FileTree
import ModuleAtlas.Resolve
import ModuleAtlas.Syntax.Node
import ModuleAtlas.Syntax.Walk
import ModuleAtlas.Syntax.Faults
import ModuleAtlas.Syntax.Findings
import ModuleAtlas.Config
import ModuleAtlas.Failure
import ModuleAtlas.Scan
import ModuleAtlas.Reading
import ModuleAtlas.Survey
import ModuleAtlas.Report.Export
import ModuleAtlas.Grammar.Text
import ModuleAtlas.Grammar.Lexeme
import ModuleAtlas.Grammar.Rule
import ModuleAtlas.Grammar.Nonterminal
import ModuleAtlas.Grammar.Ending
import ModuleAtlas.Grammar.Combinators
import ModuleAtlas.Grammar.Names
import ModuleAtlas.Grammar.Types
import ModuleAtlas.Grammar.Patterns
import ModuleAtlas.Grammar.Expressions
import ModuleAtlas.Grammar.Markup
import ModuleAtlas.Grammar.Classes
import ModuleAtlas.Grammar.Statements
import ModuleAtlas.Grammar.Parse
import ModuleAtlas.Text.Similarity
import ModuleAtlas.CommandLine.Options
import ModuleAtlas.CommandLine.Request
import ModuleAtlas.CommandLine.Screen
import ModuleAtlas.CommandLine
import ModuleAtlas.Archive
import ModuleAtlas.Main
import ModuleAtlas.Proofs.Graph.Walk
import ModuleAtlas.Proofs.Graph.FirstWay
import ModuleAtlas.Proofs.Graph.SearchStep
import ModuleAtlas.Proofs.Graph.SearchInvariant
import ModuleAtlas.Proofs.Graph.Loop
import ModuleAtlas.Proofs.Graph.SearchLoops
import ModuleAtlas.Proofs.Graph.Cycles
import ModuleAtlas.Proofs.Graph.Reported
import ModuleAtlas.Proofs.Graph.Building
import ModuleAtlas.Proofs.Graph.Shape
import ModuleAtlas.Proofs.Graph.Depth
import ModuleAtlas.Proofs.Graph.Measuring
import ModuleAtlas.Proofs.Path
import ModuleAtlas.Proofs.Resolve
import ModuleAtlas.Proofs.Reading
import ModuleAtlas.Proofs.Survey.Basic
import ModuleAtlas.Proofs.Survey.Provenance
import ModuleAtlas.Proofs.Survey.Refusal
import ModuleAtlas.Proofs.Path.Place
import ModuleAtlas.Proofs.Resolve.Ranking
import ModuleAtlas.Proofs.Path.Below
import ModuleAtlas.Proofs.FileTree.Proper
import ModuleAtlas.Proofs.Syntax.Address
import ModuleAtlas.Proofs.Syntax.Questions
import ModuleAtlas.Proofs.Syntax.Findings
import ModuleAtlas.Proofs.Sort
import ModuleAtlas.Proofs.Syntax.Faults
import ModuleAtlas.Proofs.Syntax.Clear
import ModuleAtlas.Proofs.Syntax.References
import ModuleAtlas.Proofs.Syntax.TypeOnly
import ModuleAtlas.Proofs.Reading.Dependencies
import ModuleAtlas.Proofs.Scan
import ModuleAtlas.Proofs.Survey.Conservation
import ModuleAtlas.Proofs.Report
import ModuleAtlas.Proofs.Dot.Drawing
import ModuleAtlas.Proofs.Graph.Descent
import ModuleAtlas.Proofs.Report.Unused
import ModuleAtlas.Proofs.Dot.Red
import ModuleAtlas.Proofs.Graph.Alike
import ModuleAtlas.Proofs.Graph.FileOrder
import ModuleAtlas.Proofs.Graph.Apart
import ModuleAtlas.Proofs.Path.Folder
import ModuleAtlas.Proofs.Resolve.Moved
import ModuleAtlas.Proofs.Graph.LocalDepth
import ModuleAtlas.Proofs.Graph.Parallel
import ModuleAtlas.Proofs.Reading.Unresolved
import ModuleAtlas.Proofs.Report.Rankings
import ModuleAtlas.Proofs.Report.Popularity
import ModuleAtlas.Proofs.Path.Normal
import ModuleAtlas.Proofs.Path.Form
import ModuleAtlas.Proofs.Resolve.Canonical
import ModuleAtlas.Proofs.FileTree.Straight
import ModuleAtlas.Proofs.Survey.InPlace
import ModuleAtlas.Proofs.Glob
import ModuleAtlas.Proofs.Path.Relative
import ModuleAtlas.Proofs.Graph.Deeds
import ModuleAtlas.Proofs.Syntax.Patterns
import ModuleAtlas.Proofs.Graph.CycleWalk
import ModuleAtlas.Proofs.Graph.DepthWalk
