import Reexport.Resolution
import Reexport.Edit
import Reexport.Path
import Reexport.Problem
import Reexport.Scan
import Reexport.Disk
import Reexport.Main
import Reexport.Manifest
import Reexport.CommandLine
import Reexport.Job
import Reexport.Report
import Reexport.Survey
import Reexport.Settings
import Reexport.Text.Blank
import Reexport.Proofs.Memo
import Reexport.Proofs.Requests
import Reexport.Proofs.TreeShape
import Reexport.Proofs.Records
import Reexport.Proofs.Completeness
import Reexport.Proofs.Trace
import Reexport.Proofs.Rewriting
import Reexport.Proofs.Preservation
import Reexport.Proofs.Rerun
import Reexport.Proofs.Places
import Reexport.Proofs.SecondRun
import Reexport.Proofs.NameOrder
import Reexport.Proofs.ReplacementLists
import Reexport.Proofs.Items
import Reexport.Proofs.Merging
import Reexport.Proofs.Chronology
import Reexport.Proofs.DirectiveGraph
import Reexport.Proofs.LookUps
import Reexport.Proofs.ListedNames
import Reexport.Proofs.Termination
import Reexport.Proofs.Handover
import Reexport.Proofs.Ambiguity
import Reexport.Proofs.CleanExit
import Reexport.Proofs.Splicing
import Reexport.Proofs.Siblings
import Reexport.Proofs.Renumbering
import Reexport.Proofs.NamedPlaces
import Reexport.Proofs.Turns
import Reexport.Proofs.Programs
import Reexport.Proofs.UseItems
import Reexport.Proofs.UseRules
import Reexport.Proofs.Locations
import Reexport.Proofs.Lexing
import Reexport.Proofs.StarSpans
import Reexport.Proofs.Writes
import Reexport.Proofs.Writings
import Reexport.Proofs.DryRuns
import Reexport.Proofs.WriteRules
import Reexport.Proofs.Circles
import Reexport.Proofs.Contests
import Reexport.Proofs.Listings
import Reexport.Proofs.Walks
import Reexport.Proofs.Planting
import Reexport.Proofs.Sites
import Reexport.Proofs.JoinedPaths
import Reexport.Proofs.Units
import Reexport.Proofs.Borders
import Reexport.Proofs.ListLexemes
import Reexport.Proofs.Relexing
import Reexport.Proofs.DirectiveSpans
import Reexport.Proofs.AtomicReplace
import Reexport.Proofs.ReportedTexts
import Reexport.Proofs.Accounts
import Reexport.Proofs.InterpreterLines
import Reexport.Proofs.ListedScans
import Reexport.Proofs.ReadBack
import Reexport.Proofs.LineStarts
import Reexport.Proofs.RenderedLists
import Reexport.Proofs.TreeWalks
import Reexport.Proofs.UseTrees
import Reexport.Proofs.WrittenTrees
