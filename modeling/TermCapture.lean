import TermCapture.Color.Selector
import TermCapture.Main
import TermCapture.Preview
import TermCapture.Preview.Options
import TermCapture.Proofs.Color.Notation
import TermCapture.Proofs.Folder.Writing
import TermCapture.Proofs.Markup.Look
import TermCapture.Proofs.Preview.Conversion
import TermCapture.Proofs.Rendition.Fieldwise
import TermCapture.Proofs.Rendition.Items
import TermCapture.Proofs.Run.Grouping
import TermCapture.Proofs.Screen.Erasing
import TermCapture.Proofs.Screen.Limits
import TermCapture.Proofs.Screen.Operations
import TermCapture.Proofs.Screen.Simulation
import TermCapture.Proofs.Sequence.Answers
import TermCapture.Proofs.Sequence.Printing
import TermCapture.Proofs.Session.Bounds
import TermCapture.Proofs.Session.Breaks
import TermCapture.Proofs.Session.Closing
import TermCapture.Proofs.Session.Contents
import TermCapture.Proofs.Session.Endings
import TermCapture.Proofs.Session.Export
import TermCapture.Proofs.Session.Feeding
import TermCapture.Proofs.Session.Layout
import TermCapture.Proofs.Session.Lexemes
import TermCapture.Proofs.Session.Limits
import TermCapture.Proofs.Session.Motion
import TermCapture.Proofs.Session.Pieces
import TermCapture.Proofs.Session.Refusals
import TermCapture.Proofs.Session.Restyling
import TermCapture.Proofs.Session.Reuse
import TermCapture.Proofs.Session.Saving
import TermCapture.Proofs.Session.Skipping
import TermCapture.Proofs.Session.Strictness
import TermCapture.Proofs.Session.Typing
import TermCapture.Proofs.Tool.Running
