import QuantumCircuits.Algorithm.Compression
import QuantumCircuits.Algorithm.ErrorCorrection
import QuantumCircuits.Algorithm.LinearSystem
import QuantumCircuits.Matrix.PlaneRotation
import QuantumCircuits.Optimization.AlternatingAnsatz
import QuantumCircuits.Random.Tape
import QuantumCircuits.Proofs.Basis.Wires
import QuantumCircuits.Proofs.Number.Exact
import QuantumCircuits.Proofs.Operator.Placed
import QuantumCircuits.Proofs.Matrix.Dense
import QuantumCircuits.Proofs.Circuit.WellFormed
import QuantumCircuits.Proofs.Circuit.Preservation
import QuantumCircuits.Proofs.Circuit.InPlace
import QuantumCircuits.Proofs.Circuit.Session
import QuantumCircuits.Proofs.Simulation.Lowering
import QuantumCircuits.Proofs.Simulation.Columns
import QuantumCircuits.Proofs.Circuit.Gates
import QuantumCircuits.Proofs.Simulation.Meaning
import QuantumCircuits.Proofs.Gate.Matrices
import QuantumCircuits.Proofs.Simulation.Statevector
import QuantumCircuits.Proofs.Simulation.Unitarity
import QuantumCircuits.Proofs.Simulation.Inversion
import QuantumCircuits.Proofs.Algorithm.Gates
import QuantumCircuits.Proofs.Operator.Diagonal
import QuantumCircuits.Proofs.Simulation.Registers
import QuantumCircuits.Proofs.Algorithm.LinearSystem
import QuantumCircuits.Proofs.Algorithm.Readout
import QuantumCircuits.Proofs.Simulation.Solvers
import QuantumCircuits.Proofs.Operator.Fourier
import QuantumCircuits.Proofs.Simulation.Standalone
import QuantumCircuits.Proofs.Algorithm.CodeTables
import QuantumCircuits.Proofs.Algorithm.ErrorCorrection
import QuantumCircuits.Proofs.Algorithm.FiveQubitCode
import QuantumCircuits.Proofs.Algorithm.Fourier
import QuantumCircuits.Proofs.Algorithm.PhaseEstimation
import QuantumCircuits.Proofs.Simulation.Trajectories
import QuantumCircuits.Proofs.Simulation.LoweredInverses
import QuantumCircuits.Proofs.Simulation.Wrappers
import QuantumCircuits.Proofs.Algorithm.RotationLadder
import QuantumCircuits.Proofs.Algorithm.CompactSolver
import QuantumCircuits.Proofs.Circuit.Tokens
import QuantumCircuits.Proofs.Number.InnerProduct
import QuantumCircuits.Proofs.Simulation.Acceptance
import QuantumCircuits.Proofs.Simulation.ControlGuard
import QuantumCircuits.Proofs.Simulation.Resets
import QuantumCircuits.Proofs.Algorithm.ThreeQubitCode
import QuantumCircuits.Proofs.Simulation.Relabelling
import QuantumCircuits.Proofs.Simulation.Composition
import QuantumCircuits.Proofs.Simulation.Histogram
import QuantumCircuits.Proofs.Random.Accounting
import QuantumCircuits.Proofs.Simulation.Shots
import QuantumCircuits.Proofs.Algorithm.WeightOrder
import QuantumCircuits.Proofs.Operator.Product
import QuantumCircuits.Proofs.Simulation.ExactRuns
import QuantumCircuits.Proofs.Algorithm.Compressor
import QuantumCircuits.Proofs.Algorithm.Compression
import QuantumCircuits.Proofs.Simulation.DrawnErrors
import QuantumCircuits.Proofs.Simulation.Reordering
import QuantumCircuits.Proofs.Matrix.Exponential
import QuantumCircuits.Proofs.Simulation.MeasuredShots
import QuantumCircuits.Proofs.Simulation.Slices
import QuantumCircuits.Proofs.Circuit.Templates
import QuantumCircuits.Proofs.Gate.TokenNames
import QuantumCircuits.Proofs.Optimization.AlternatingAnsatz
import QuantumCircuits.Proofs.Optimization.Expectation
import QuantumCircuits.Proofs.Basis.Labels
import QuantumCircuits.Proofs.Operator.Uniform
import QuantumCircuits.Proofs.Optimization.MaxCut
import QuantumCircuits.Proofs.Optimization.MeanCost
import QuantumCircuits.Proofs.Optimization.Simplex
import QuantumCircuits.Proofs.Optimization.Optimum
import QuantumCircuits.Proofs.Algorithm.Solution
import QuantumCircuits.Proofs.Operator.Overlap
import QuantumCircuits.Proofs.Algorithm.FidelityBounds
import QuantumCircuits.Proofs.Algorithm.SolverAcceptance
import QuantumCircuits.Proofs.Algorithm.SourceDensity
import QuantumCircuits.Proofs.Simulation.SteadyRuns
import QuantumCircuits.Proofs.Algorithm.CompressionTrials
import QuantumCircuits.Proofs.Circuit.Inversions
import QuantumCircuits.Proofs.Simulation.HistogramAlgebra
import QuantumCircuits.Proofs.Algorithm.UndefinedInput
import QuantumCircuits.Proofs.Basis.Numerals
import QuantumCircuits.Proofs.Algorithm.WeightSorting
import QuantumCircuits.Proofs.Simulation.SlicePartition
import QuantumCircuits.Proofs.Simulation.PrintedLabels
import QuantumCircuits.Proofs.Optimization.ClauseText
import QuantumCircuits.Proofs.Circuit.ControlText
import QuantumCircuits.Proofs.Gate.FamilyBindings
import QuantumCircuits.Proofs.Simulation.PoweredGates
import QuantumCircuits.Proofs.Simulation.EvolutionGroup
