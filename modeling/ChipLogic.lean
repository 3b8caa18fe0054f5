import ChipLogic.Chip.Builder
import ChipLogic.Chip.Definition
import ChipLogic.Chip.Gate
import ChipLogic.Chip.Pin
import ChipLogic.Chip.Printer
import ChipLogic.Chip.Problem
import ChipLogic.Chip.Range
import ChipLogic.Cli.Arguments
import ChipLogic.Cli.Assignment
import ChipLogic.Cli.Help
import ChipLogic.Cli.Program
import ChipLogic.Diagnostic.Basic
import ChipLogic.Diagnostic.Log
import ChipLogic.Diagnostic.Render
import ChipLogic.Files.Disk
import ChipLogic.Files.Path
import ChipLogic.Files.Tree
import ChipLogic.Hdl.Cursor
import ChipLogic.Hdl.Fault
import ChipLogic.Hdl.Grammar
import ChipLogic.Hdl.Lexer
import ChipLogic.Hdl.Parser
import ChipLogic.Hdl.Piece
import ChipLogic.Hdl.Token
import ChipLogic.Hdl.Tree
import ChipLogic.Hdl.Walk
import ChipLogic.Main
import ChipLogic.Netlist.Basic
import ChipLogic.Netlist.Printer
import ChipLogic.Project.Build
import ChipLogic.Project.Config
import ChipLogic.Proofs.Chip.Derived
import ChipLogic.Proofs.Chip.Pieces
import ChipLogic.Proofs.Chip.Pins
import ChipLogic.Proofs.Chip.Rebuild
import ChipLogic.Proofs.Chip.Spans
import ChipLogic.Proofs.Cli.Values
import ChipLogic.Proofs.Diagnostic.Checked
import ChipLogic.Proofs.Hdl.Accepts
import ChipLogic.Proofs.Hdl.Dividing
import ChipLogic.Proofs.Hdl.Faithful
import ChipLogic.Proofs.Hdl.Faults
import ChipLogic.Proofs.Hdl.Language
import ChipLogic.Proofs.Hdl.Lexemes
import ChipLogic.Proofs.Hdl.Marks
import ChipLogic.Proofs.Hdl.Overlaps
import ChipLogic.Proofs.Hdl.Places
import ChipLogic.Proofs.Hdl.Reads
import ChipLogic.Proofs.Hdl.Recovery
import ChipLogic.Proofs.Hdl.Resume
import ChipLogic.Proofs.Hdl.Salvage
import ChipLogic.Proofs.Hdl.Spelling
import ChipLogic.Proofs.Hdl.Splitting
import ChipLogic.Proofs.Hdl.Turns
import ChipLogic.Proofs.Netlist.Canonical
import ChipLogic.Proofs.Netlist.Dependency
import ChipLogic.Proofs.Netlist.Depth
import ChipLogic.Proofs.Netlist.Mirror
import ChipLogic.Proofs.Netlist.WellFormed
import ChipLogic.Proofs.Netlist.Windows
import ChipLogic.Proofs.Session.Answers
import ChipLogic.Proofs.Session.Canonical
import ChipLogic.Proofs.Session.Circles
import ChipLogic.Proofs.Session.Circular
import ChipLogic.Proofs.Session.Connect
import ChipLogic.Proofs.Session.Copy
import ChipLogic.Proofs.Session.Decide
import ChipLogic.Proofs.Session.Drawn
import ChipLogic.Proofs.Session.Fates
import ChipLogic.Proofs.Session.Fitting
import ChipLogic.Proofs.Session.Freeze
import ChipLogic.Proofs.Session.Growth
import ChipLogic.Proofs.Session.Intake
import ChipLogic.Proofs.Session.Later
import ChipLogic.Proofs.Session.Layout
import ChipLogic.Proofs.Session.Ledger
import ChipLogic.Proofs.Session.Link
import ChipLogic.Proofs.Session.LinkPhases
import ChipLogic.Proofs.Session.LinkSteps
import ChipLogic.Proofs.Session.Linkable
import ChipLogic.Proofs.Session.Linking
import ChipLogic.Proofs.Session.Loading
import ChipLogic.Proofs.Session.Located
import ChipLogic.Proofs.Session.Misspelled
import ChipLogic.Proofs.Session.Nets
import ChipLogic.Proofs.Session.Offline
import ChipLogic.Proofs.Session.Order
import ChipLogic.Proofs.Session.Outcome
import ChipLogic.Proofs.Session.Printed
import ChipLogic.Proofs.Session.Questions
import ChipLogic.Proofs.Session.Quiet
import ChipLogic.Proofs.Session.Recased
import ChipLogic.Proofs.Session.Registry
import ChipLogic.Proofs.Session.Remembered
import ChipLogic.Proofs.Session.Reread
import ChipLogic.Proofs.Session.Resolve
import ChipLogic.Proofs.Session.Respelled
import ChipLogic.Proofs.Session.Restored
import ChipLogic.Proofs.Session.Roundtrip
import ChipLogic.Proofs.Session.Script
import ChipLogic.Proofs.Session.Silence
import ChipLogic.Proofs.Session.Sourced
import ChipLogic.Proofs.Session.Steady
import ChipLogic.Proofs.Session.Stocked
import ChipLogic.Proofs.Session.Valid
import ChipLogic.Proofs.Session.Walk
import ChipLogic.Proofs.Session.Warnings
import ChipLogic.Proofs.Sim.Alike
import ChipLogic.Proofs.Sim.Calls
import ChipLogic.Proofs.Sim.Change
import ChipLogic.Proofs.Sim.Converge
import ChipLogic.Proofs.Sim.Determined
import ChipLogic.Proofs.Sim.Exhaustive
import ChipLogic.Proofs.Sim.Failure
import ChipLogic.Proofs.Sim.Frame
import ChipLogic.Proofs.Sim.Lazy
import ChipLogic.Proofs.Sim.Lens
import ChipLogic.Proofs.Sim.Limits
import ChipLogic.Proofs.Sim.Meaning
import ChipLogic.Proofs.Sim.Nodes
import ChipLogic.Proofs.Sim.Readout
import ChipLogic.Proofs.Sim.Settled
import ChipLogic.Proofs.Sim.Shape
import ChipLogic.Proofs.Sim.Tidy
import ChipLogic.Proofs.Sim.Transfer
import ChipLogic.Proofs.Sim.Untouched
import ChipLogic.Proofs.Sim.Window
import ChipLogic.Proofs.Source.Holds
import ChipLogic.Proofs.Source.Lines
import ChipLogic.Proofs.Text.Blank
import ChipLogic.Proofs.Text.Numeral
import ChipLogic.Session.Basic
import ChipLogic.Session.Connect
import ChipLogic.Session.Freeze
import ChipLogic.Session.Link
import ChipLogic.Session.Resolve
import ChipLogic.Sim.Error
import ChipLogic.Sim.Run
import ChipLogic.Sim.Settle
import ChipLogic.Sim.State
import ChipLogic.Sim.Table
import ChipLogic.Sim.Window
import ChipLogic.Slots
import ChipLogic.Source.File
import ChipLogic.Source.Span
import ChipLogic.Symbols
import ChipLogic.Text.Align
import ChipLogic.Text.Blank
import ChipLogic.Text.Case
import ChipLogic.Text.Json
import ChipLogic.Text.Numeral
import ChipLogic.Text.Offset
import ChipLogic.Toml.Date
import ChipLogic.Toml.Node
import ChipLogic.Toml.Number
import ChipLogic.Toml.Quoted
import ChipLogic.Toml.Reader
import ChipLogic.Toml.Scan
