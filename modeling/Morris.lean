import Morris.Bitboard
import Morris.Board
import Morris.Engine
import Morris.Engine.Options
import Morris.Error
import Morris.Evaluation
import Morris.Game
import Morris.InPlace
import Morris.Json.Basic
import Morris.Json.Layout
import Morris.Json.Printer
import Morris.Json.Reader
import Morris.Key
import Morris.Key.Words
import Morris.Main
import Morris.Move
import Morris.Move.Record
import Morris.Moves.Legal
import Morris.Moves.Perft
import Morris.Moves.Ranked
import Morris.Point
import Morris.Position.Basic
import Morris.Position.Command
import Morris.Position.Diagram
import Morris.Position.Image
import Morris.Position.Layout
import Morris.Position.Mill
import Morris.Position.Play
import Morris.Position.Turn
import Morris.Random.Shuffle
import Morris.Random.Stream
import Morris.Rule.Basic
import Morris.Rule.Json
import Morris.Rule.Preset
import Morris.Rule.Setting
import Morris.Search.Algorithm
import Morris.Search.Basic
import Morris.Search.Deepening
import Morris.Search.Interleaving
import Morris.Search.Negamax
import Morris.Session
import Morris.Session.Arguments
import Morris.Side
import Morris.Status
import Morris.Symmetry
import Morris.Table
import Morris.Text.Blank
import Morris.Text.Number
import Morris.Variant
import Morris.Proofs.Bitboard
import Morris.Proofs.Key
import Morris.Proofs.Layout
import Morris.Proofs.Turn
import Morris.Proofs.Placing
import Morris.Proofs.Play
import Morris.Proofs.Sound
import Morris.Proofs.Image
import Morris.Proofs.Reachable
import Morris.Proofs.Legal
import Morris.Proofs.Effect
import Morris.Proofs.Complete
import Morris.Proofs.Finished
import Morris.Proofs.Progress.Freedom
import Morris.Proofs.Progress.Turn
import Morris.Proofs.Progress.Frame
import Morris.Proofs.Progress.Sliding
import Morris.Proofs.Progress.Placing
import Morris.Proofs.Progress.Removing
import Morris.Proofs.Progress.Played
import Morris.Proofs.Search.Tree
import Morris.Proofs.Search.Table
import Morris.Proofs.Search.Walk
import Morris.Proofs.Search.Horizon
import Morris.Proofs.Search.Node
import Morris.Proofs.Search.Root
import Morris.Proofs.Search.Workers
import Morris.Proofs.Search.Algorithm
import Morris.Proofs.Search.Frame
import Morris.Proofs.Search.Choice
import Morris.Proofs.Search.Deepening
import Morris.Proofs.Reorder
import Morris.Proofs.Search.Interleaving
import Morris.Proofs.Search.Interrupted
import Morris.Proofs.Search.Restore
import Morris.Proofs.Engine
import Morris.Proofs.Table.Bucket
import Morris.Proofs.Table.History
import Morris.Proofs.Accepted
import Morris.Proofs.Draws
import Morris.Proofs.Symmetry.Board
import Morris.Proofs.Symmetry.Mirror
import Morris.Proofs.Symmetry.Turn
import Morris.Proofs.Symmetry.Play
import Morris.Proofs.Symmetry.Game
import Morris.Proofs.Symmetry.Inverse
import Morris.Proofs.Game.Inverse
import Morris.Proofs.Ply
import Morris.Proofs.Records
import Morris.Proofs.InPlace
import Morris.Proofs.Game.History
import Morris.Proofs.Game.Replay
import Morris.Proofs.Search.Drawn
import Morris.Proofs.Search.Iteration
import Morris.Proofs.Search.Shallow
import Morris.Proofs.Search.Crew
import Morris.Proofs.Search.Splitting
import Morris.Proofs.Threads
import Morris.Proofs.Owed
import Morris.Proofs.Hashed
import Morris.Proofs.Quiet
import Morris.Proofs.Length
import Morris.Proofs.Shortage
import Morris.Proofs.Game.Choice
import Morris.Proofs.Game.Trail
import Morris.Proofs.Game.Rules
import Morris.Proofs.Setting
import Morris.Proofs.Session
import Morris.Proofs.Step
import Morris.Proofs.Marks
import Morris.Proofs.Blocked
import Morris.Proofs.Lines
import Morris.Proofs.Earned
import Morris.Proofs.Reach
import Morris.Proofs.Value
import Morris.Proofs.Ranked
import Morris.Proofs.Grammar
import Morris.Proofs.Barred
import Morris.Proofs.Search.Band
import Morris.Proofs.Shuffled
import Morris.Proofs.Faced
import Morris.Proofs.Breadth
