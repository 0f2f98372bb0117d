import Workboard.Board.Basic
import Workboard.Board.Creation
import Workboard.Board.Edit
import Workboard.Board.Locks
import Workboard.Board.Reconcile
import Workboard.Board.Records
import Workboard.Board.Work
import Workboard.Command.Arguments
import Workboard.Command.Run
import Workboard.Command.Words
import Workboard.Error
import Workboard.Graph
import Workboard.Graph.Components
import Workboard.Graph.Readiness
import Workboard.Json.Printer
import Workboard.Json.Reader
import Workboard.Json.Value
import Workboard.Lock.Record
import Workboard.Main
import Workboard.Number.Binary64
import Workboard.Number.Decimal
import Workboard.Number.Reader
import Workboard.Proofs.Board.Acyclic
import Workboard.Proofs.Board.Alone
import Workboard.Proofs.Board.Apart
import Workboard.Proofs.Board.Claiming
import Workboard.Proofs.Board.Claims
import Workboard.Proofs.Board.Completing
import Workboard.Proofs.Board.Contending
import Workboard.Proofs.Board.Creating
import Workboard.Proofs.Board.Editing
import Workboard.Proofs.Board.Failing
import Workboard.Proofs.Board.Guarding
import Workboard.Proofs.Board.Inheriting
import Workboard.Proofs.Board.Lineage
import Workboard.Proofs.Board.Linking
import Workboard.Proofs.Board.Listed
import Workboard.Proofs.Board.Lone
import Workboard.Proofs.Board.Overtaking
import Workboard.Proofs.Board.Owning
import Workboard.Proofs.Board.Reading
import Workboard.Proofs.Board.Recovery
import Workboard.Proofs.Board.Reporting
import Workboard.Proofs.Board.Routes
import Workboard.Proofs.Board.Saving
import Workboard.Proofs.Board.Scanning
import Workboard.Proofs.Board.Sharing
import Workboard.Proofs.Board.Spawning
import Workboard.Proofs.Board.Steps
import Workboard.Proofs.Board.Timing
import Workboard.Proofs.Board.Turns
import Workboard.Proofs.Board.Whole
import Workboard.Proofs.Graph.Cascading
import Workboard.Proofs.Graph.Completing
import Workboard.Proofs.Graph.Components
import Workboard.Proofs.Graph.Readiness
import Workboard.Proofs.Graph.Repairing
import Workboard.Proofs.Graph.SameNodes
import Workboard.Proofs.Graph.Settling
import Workboard.Proofs.Interleaving.Actions
import Workboard.Proofs.Interleaving.Calls
import Workboard.Proofs.Interleaving.Protocol
import Workboard.Proofs.Interleaving.Quiet
import Workboard.Proofs.Interleaving.Scene
import Workboard.Proofs.Interleaving.Sparing
import Workboard.Proofs.Interleaving.Stretches
import Workboard.Proofs.Json.Quoted
import Workboard.Proofs.Lock.Alone
import Workboard.Proofs.Lock.Beating
import Workboard.Proofs.Lock.Exclusion
import Workboard.Proofs.Lock.Granting
import Workboard.Proofs.Lock.History
import Workboard.Proofs.Lock.Hours
import Workboard.Proofs.Lock.Reclaiming
import Workboard.Proofs.Lock.Render
import Workboard.Proofs.Lock.Slot
import Workboard.Proofs.Lock.Sound
import Workboard.Proofs.Lock.Taking
import Workboard.Proofs.Lock.Vanishing
import Workboard.Proofs.Number.Nearest
import Workboard.Proofs.Number.Shortest
import Workboard.Proofs.Sorted
import Workboard.Proofs.Storage.Alone
import Workboard.Proofs.Storage.Hidden
import Workboard.Proofs.Storage.Listing
import Workboard.Proofs.Storage.Outcomes
import Workboard.Proofs.Storage.Steady
import Workboard.Proofs.Storage.Whole
import Workboard.Proofs.Task.Moving
import Workboard.Proofs.Text.Digits
import Workboard.Proofs.Time.Accepted
import Workboard.Proofs.Time.Order
import Workboard.Settings
import Workboard.Sorted
import Workboard.Storage.Faults
import Workboard.Storage.Files
import Workboard.Storage.Path
import Workboard.Storage.Program
import Workboard.Storage.Staged
import Workboard.Storage.Tree
import Workboard.Storage.World
import Workboard.Task.Basic
import Workboard.Task.Id
import Workboard.Task.Record
import Workboard.Task.State
import Workboard.Task.Transition
import Workboard.Text.Blank
import Workboard.Text.Bytes
import Workboard.Text.Cut
import Workboard.Text.Quoted
import Workboard.Text.Shown
import Workboard.Text.Table
import Workboard.Time.Instant
import Workboard.Time.Printer
import Workboard.Time.Reader
import Workboard.Yaml.Lexer
import Workboard.Yaml.Lexer.Scalar
import Workboard.Yaml.Lexer.Spot
import Workboard.Yaml.Lexer.Tag
import Workboard.Yaml.Node
import Workboard.Yaml.Printer
import Workboard.Yaml.Reading
import Workboard.Yaml.Scalar
import Workboard.Yaml.Style
import Workboard.Yaml.Token
import Workboard.Yaml.Value
