import ChessEngine.Main
import ChessEngine.Move.Code
import ChessEngine.Perft
import ChessEngine.Position.Audit
import ChessEngine.Position.Edit
import ChessEngine.Position.Reachable
import ChessEngine.Rules.Reflection
import ChessEngine.Rules.Movement
import ChessEngine.Search.Minimax
import ChessEngine.Search.Runs
import ChessEngine.Search.Scan
import ChessEngine.Proofs.Generator.Distinct
import ChessEngine.Proofs.Position.Kings
import ChessEngine.Proofs.Search.Mate
import ChessEngine.Proofs.Untouched
import ChessEngine.Proofs.Fen.Parse
import ChessEngine.Proofs.Reflection.Setup
import ChessEngine.Proofs.Position.Succession
import ChessEngine.Proofs.Search.Table
import ChessEngine.Proofs.Position.Weight
import ChessEngine.Proofs.Search.Score
import ChessEngine.Proofs.Search.NoMoves
import ChessEngine.Proofs.Position.Acceptance
import ChessEngine.Proofs.Overrun
import ChessEngine.Proofs.Lines
import ChessEngine.Proofs.Reflection.Score
import ChessEngine.Proofs.Search.Ranks
import ChessEngine.Proofs.Search.Fresh
import ChessEngine.Proofs.Search.Picking
import ChessEngine.Proofs.Position.Edit
import ChessEngine.Proofs.Generator.Capacity
import ChessEngine.Proofs.Search.Cutoffs
import ChessEngine.Proofs.MoveCode
