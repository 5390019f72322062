import ConnectorAudit.Audit
import ConnectorAudit.Audit.Events
import ConnectorAudit.Audit.Json
import ConnectorAudit.Audit.Summary
import ConnectorAudit.CommandLine
import ConnectorAudit.Folder
import ConnectorAudit.Fragments
import ConnectorAudit.Graph
import ConnectorAudit.Graph.Components
import ConnectorAudit.Graph.Dot
import ConnectorAudit.Graph.Hotspots
import ConnectorAudit.Graph.Paths
import ConnectorAudit.Graph.Reach
import ConnectorAudit.Issue
import ConnectorAudit.Json
import ConnectorAudit.Main
import ConnectorAudit.Outline
import ConnectorAudit.Outline.Build
import ConnectorAudit.Outline.Entries
import ConnectorAudit.Outline.Parts
import ConnectorAudit.Output
import ConnectorAudit.Path
import ConnectorAudit.Proofs.Bodies
import ConnectorAudit.Proofs.Brackets
import ConnectorAudit.Proofs.Callables
import ConnectorAudit.Proofs.Caps
import ConnectorAudit.Proofs.Codes
import ConnectorAudit.Proofs.Commands
import ConnectorAudit.Proofs.Complexity
import ConnectorAudit.Proofs.Components
import ConnectorAudit.Proofs.Continuations
import ConnectorAudit.Proofs.Coverage
import ConnectorAudit.Proofs.Cycles
import ConnectorAudit.Proofs.Data
import ConnectorAudit.Proofs.Depths
import ConnectorAudit.Proofs.Derivations
import ConnectorAudit.Proofs.Descents
import ConnectorAudit.Proofs.DocumentChoice
import ConnectorAudit.Proofs.Documents
import ConnectorAudit.Proofs.Drawings
import ConnectorAudit.Proofs.Entrypoints
import ConnectorAudit.Proofs.Escapes
import ConnectorAudit.Proofs.EventLines
import ConnectorAudit.Proofs.Extents
import ConnectorAudit.Proofs.Faithful
import ConnectorAudit.Proofs.FileNames
import ConnectorAudit.Proofs.Findings
import ConnectorAudit.Proofs.FirstMentions
import ConnectorAudit.Proofs.Forms
import ConnectorAudit.Proofs.GraftedTokens
import ConnectorAudit.Proofs.Grafts
import ConnectorAudit.Proofs.Growth
import ConnectorAudit.Proofs.Heredocs
import ConnectorAudit.Proofs.Hotspots
import ConnectorAudit.Proofs.JsonTexts
import ConnectorAudit.Proofs.Jumps
import ConnectorAudit.Proofs.Layout
import ConnectorAudit.Proofs.Lexemes
import ConnectorAudit.Proofs.Literals
import ConnectorAudit.Proofs.Logs
import ConnectorAudit.Proofs.Lookahead
import ConnectorAudit.Proofs.Loops
import ConnectorAudit.Proofs.LowLinks
import ConnectorAudit.Proofs.MethodIssues
import ConnectorAudit.Proofs.Moves
import ConnectorAudit.Proofs.Nesting
import ConnectorAudit.Proofs.NodeLayout
import ConnectorAudit.Proofs.Outlines
import ConnectorAudit.Proofs.ParameterLists
import ConnectorAudit.Proofs.ParseProgress
import ConnectorAudit.Proofs.Parses
import ConnectorAudit.Proofs.Places
import ConnectorAudit.Proofs.Quotations
import ConnectorAudit.Proofs.Reached
import ConnectorAudit.Proofs.Readers
import ConnectorAudit.Proofs.Readings
import ConnectorAudit.Proofs.References
import ConnectorAudit.Proofs.Reordering
import ConnectorAudit.Proofs.Rescans
import ConnectorAudit.Proofs.Results
import ConnectorAudit.Proofs.Routes
import ConnectorAudit.Proofs.Rules
import ConnectorAudit.Proofs.ScanProgress
import ConnectorAudit.Proofs.Scans
import ConnectorAudit.Proofs.Seams
import ConnectorAudit.Proofs.SectionParts
import ConnectorAudit.Proofs.Segments
import ConnectorAudit.Proofs.ShapedParses
import ConnectorAudit.Proofs.Shifts
import ConnectorAudit.Proofs.Sorting
import ConnectorAudit.Proofs.Spellings
import ConnectorAudit.Proofs.Spending
import ConnectorAudit.Proofs.TerminalPaths
import ConnectorAudit.Proofs.Traces
import ConnectorAudit.Proofs.Transplants
import ConnectorAudit.Proofs.Traversals
import ConnectorAudit.Proofs.TreeLayout
import ConnectorAudit.Proofs.UnclosedSections
import ConnectorAudit.Proofs.Walks
import ConnectorAudit.Report
import ConnectorAudit.Run
import ConnectorAudit.Section
import ConnectorAudit.SourceFile
import ConnectorAudit.Storage
import ConnectorAudit.Survey
import ConnectorAudit.Text.Alphanumeric
import ConnectorAudit.Text.Blank
import ConnectorAudit.Text.Cursor
import ConnectorAudit.Text.Feed
import ConnectorAudit.Text.Lines
import ConnectorAudit.Text.Span
import ConnectorAudit.Text.Table
import ConnectorAudit.Token
import ConnectorAudit.Token.Extent
import ConnectorAudit.Token.Heredoc
import ConnectorAudit.Token.Lexeme
import ConnectorAudit.Token.Quoted
import ConnectorAudit.Token.Reader
import ConnectorAudit.Token.Scan
import ConnectorAudit.Tree
import ConnectorAudit.Tree.Document
import ConnectorAudit.Tree.Failure
import ConnectorAudit.Tree.Grammar
import ConnectorAudit.Tree.Parameters
import ConnectorAudit.Tree.Parse
import ConnectorAudit.Tree.Progress
import ConnectorAudit.Tree.Traversal
