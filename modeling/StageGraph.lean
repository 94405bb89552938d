import StageGraph.CommandLine
import StageGraph.Compile
import StageGraph.EdgeList.Attachment
import StageGraph.EdgeList.Form
import StageGraph.Failure
import StageGraph.Graph.Basic
import StageGraph.Graph.Listing
import StageGraph.Graph.Order
import StageGraph.Graph.Validity
import StageGraph.Json.Number
import StageGraph.Json.Reading
import StageGraph.Json.Shape
import StageGraph.Json.Writing
import StageGraph.Node.Basic
import StageGraph.Node.Json
import StageGraph.Node.Text
import StageGraph.Plain.Bracket
import StageGraph.Plain.Completion
import StageGraph.Plain.Division
import StageGraph.Plain.Expression
import StageGraph.Plain.Mark
import StageGraph.Plain.Ordinal
import StageGraph.Plain.Parts
import StageGraph.Plain.Span
import StageGraph.Plain.Walk
import StageGraph.Proofs.EdgeList.Attachment
import StageGraph.Proofs.Graph.Adjacency
import StageGraph.Proofs.Graph.Order
import StageGraph.Proofs.Graph.Search
import StageGraph.Proofs.Graph.Shape
import StageGraph.Proofs.Plain.Agreement
import StageGraph.Proofs.Plain.Drawing
import StageGraph.Proofs.Plain.Grammar
import StageGraph.Proofs.Plain.Layout
import StageGraph.Proofs.Plain.Meaning
import StageGraph.Proofs.Plain.Ordinal
import StageGraph.Proofs.Plain.Place
import StageGraph.Proofs.Plain.Reading
import StageGraph.Proofs.Plain.Row
import StageGraph.Proofs.Plain.Run
import StageGraph.Proofs.Plain.Spelling
import StageGraph.Proofs.Plain.Step
import StageGraph.Proofs.Plain.Token
import StageGraph.Proofs.Plain.Tree
import StageGraph.Proofs.Plain.Validity
import StageGraph.Proofs.Shape
import StageGraph.Text.Basic
import StageGraph.Text.Digit
import StageGraph.Text.Quoted
import StageGraph.Text.Unprintable
import StageGraph.Thumbnail
import StageGraph.Main
import StageGraph.Proofs.Appearance
import StageGraph.Proofs.Graph.Insertion
import StageGraph.Proofs.Graph.Equality
import StageGraph.Proofs.Graph.Calls
import StageGraph.Proofs.Graph.Verdict
import StageGraph.Proofs.Graph.Document
import StageGraph.Proofs.EdgeList.Outcome
import StageGraph.Proofs.Plain.Naming
import StageGraph.Proofs.Plain.Topology
import StageGraph.Proofs.Plain.Sequence
import StageGraph.Proofs.EdgeList.Encoding
import StageGraph.Proofs.Renaming
import StageGraph.Proofs.Thumbnail.Letters
import StageGraph.Proofs.Plain.Renaming
import StageGraph.Proofs.EdgeList.Renaming
import StageGraph.Proofs.Thumbnail.Plain
import StageGraph.Proofs.Thumbnail.Shape
import StageGraph.Proofs.Thumbnail.Stability
import StageGraph.Proofs.Plain.Independence
import StageGraph.Proofs.EdgeList.RoundTrip
import StageGraph.Proofs.Json.Grammar
import StageGraph.Proofs.Json.Scanning
import StageGraph.Proofs.Json.Skipping
import StageGraph.Proofs.Json.Exactness
import StageGraph.Proofs.Json.Printing
import StageGraph.Proofs.EdgeList.Recognition
import StageGraph.Proofs.EdgeList.Agreement
import StageGraph.Proofs.EdgeList.Ends
import StageGraph.Proofs.Reserved
import StageGraph.Proofs.Graph.Listed
import StageGraph.Proofs.Graph.Queue
import StageGraph.Proofs.Graph.EdgeSet
import StageGraph.Proofs.Thumbnail.Margins
import StageGraph.Proofs.EdgeList.Cycle
import StageGraph.Proofs.Plain.Resolution
import StageGraph.Proofs.Plain.Termination
import StageGraph.Proofs.Plain.Unbalanced
import StageGraph.Proofs.Plain.Identity
import StageGraph.Proofs.Graph.Comparison
import StageGraph.Proofs.Plain.Completion
import StageGraph.Proofs.Lines
import StageGraph.Proofs.EdgeList.Explicit
import StageGraph.Proofs.Plain.Matching
import StageGraph.Proofs.Plain.Division
import StageGraph.Proofs.Plain.Numbering
import StageGraph.Proofs.Thumbnail.Words
