import RegisterColoring.Main
import RegisterColoring.Proofs.Coloring
import RegisterColoring.Proofs.Execution
import RegisterColoring.Proofs.Flow
import RegisterColoring.Proofs.Interference
import RegisterColoring.Proofs.LiveEquations
import RegisterColoring.Proofs.LivePaths
import RegisterColoring.Proofs.Lockstep
import RegisterColoring.Proofs.SharedRegisters
import RegisterColoring.Proofs.Core
import RegisterColoring.Proofs.Pressure
import RegisterColoring.Proofs.Grammar
import RegisterColoring.Proofs.RoundTrip
import RegisterColoring.Proofs.Reports
import RegisterColoring.Proofs.LineByLine
import RegisterColoring.Proofs.Renaming
import RegisterColoring.Proofs.RenamedRuns
import RegisterColoring.Proofs.FirstOffence
import RegisterColoring.Proofs.PassCount
import RegisterColoring.Proofs.FaultyLines
import RegisterColoring.Proofs.Recount
import RegisterColoring.Proofs.Stages
import RegisterColoring.Proofs.FreshTemps
import RegisterColoring.Proofs.Pieces
import RegisterColoring.Proofs.Gaps
import RegisterColoring.Proofs.FaithfulSpans
import RegisterColoring.Proofs.Padding
import RegisterColoring.Proofs.NeutralLabels
import RegisterColoring.Proofs.GreedyColoring
import RegisterColoring.Proofs.ControlFlow
import RegisterColoring.Proofs.PassLog
import RegisterColoring.Proofs.EdgeCount
import RegisterColoring.Proofs.Pools
