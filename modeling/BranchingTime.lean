import BranchingTime.CommandLine
import BranchingTime.Ctl.Evaluate
import BranchingTime.Ctl.Formula
import BranchingTime.Diagram.Connective
import BranchingTime.Diagram.Count
import BranchingTime.Diagram.Fault
import BranchingTime.Diagram.Handle
import BranchingTime.Diagram.Manager
import BranchingTime.Diagram.Path
import BranchingTime.Diagram.Quantifier
import BranchingTime.Diagram.Reach
import BranchingTime.Diagram.ResultCache
import BranchingTime.Diagram.Substitution
import BranchingTime.Diagram.UniqueTable
import BranchingTime.Example.Cube
import BranchingTime.Example.Decode
import BranchingTime.Expr.Code
import BranchingTime.Expr.Lexeme
import BranchingTime.Expr.Machine
import BranchingTime.Expr.Operator
import BranchingTime.Hashing
import BranchingTime.Journal
import BranchingTime.Kripke.Model
import BranchingTime.Kripke.Step
import BranchingTime.Main
import BranchingTime.Program.Block
import BranchingTime.Program.ControlTable
import BranchingTime.Program.Error
import BranchingTime.Program.Source
import BranchingTime.Program.Statement
import BranchingTime.Proofs.BlockGrammar
import BranchingTime.Proofs.BlockSemantics
import BranchingTime.Proofs.Canonicity
import BranchingTime.Proofs.Collection
import BranchingTime.Proofs.Continuations
import BranchingTime.Proofs.Counterexamples
import BranchingTime.Proofs.Counting
import BranchingTime.Proofs.CubeReading
import BranchingTime.Proofs.CubeStates
import BranchingTime.Proofs.Denotation
import BranchingTime.Proofs.Diagnosis
import BranchingTime.Proofs.Ending
import BranchingTime.Proofs.EvaluationSemantics
import BranchingTime.Proofs.Independence
import BranchingTime.Proofs.IteDenotation
import BranchingTime.Proofs.NodeMaking
import BranchingTime.Proofs.PathCubes
import BranchingTime.Proofs.QuantifierDenotation
import BranchingTime.Proofs.RenamingDenotation
import BranchingTime.Proofs.RunningProgram
import BranchingTime.Proofs.StateBits
import BranchingTime.Proofs.TableInvariant
import BranchingTime.Proofs.TemporalSemantics
import BranchingTime.Proofs.UnfoldingExact
import BranchingTime.Proofs.VerdictCorrect
import BranchingTime.Session
import BranchingTime.State.Encoding
import BranchingTime.Text.Blank
import BranchingTime.Text.Piece
import BranchingTime.Text.Word
import BranchingTime.Verdict
import BranchingTime.Proofs.DeadlockFree
import BranchingTime.Proofs.CacheTransparency
import BranchingTime.Proofs.ConnectiveCorrect
import BranchingTime.Proofs.GuardedDiagram
import BranchingTime.Proofs.GuardedModel
import BranchingTime.Proofs.GuardedText
import BranchingTime.Proofs.NeverFaults
import BranchingTime.Proofs.CollectionExact
import BranchingTime.Proofs.CompilationExact
import BranchingTime.Proofs.TreeEvaluation
import BranchingTime.Proofs.TableLayout
import BranchingTime.Proofs.FormulaTokens
import BranchingTime.Proofs.FormulaRendering
import BranchingTime.Proofs.FormulaAcceptance
import BranchingTime.Diagram.PathCursor
import BranchingTime.Proofs.PathEnumeration
import BranchingTime.Proofs.CubeRoundTrip
import BranchingTime.Proofs.EncodingAgreement
import BranchingTime.Proofs.AcrossManagers
import BranchingTime.Proofs.FixpointChains
import BranchingTime.Proofs.UnfoldingEnds
import BranchingTime.Proofs.DescriptorSoundness
import BranchingTime.Proofs.IntegerAssignments
import BranchingTime.Proofs.NormalForm
import BranchingTime.Proofs.Reparsing
import BranchingTime.Proofs.DeclarationCount
import BranchingTime.Proofs.SessionConsistency
import BranchingTime.Proofs.CacheHistory
import BranchingTime.Proofs.CommentsAndBraces
import BranchingTime.Proofs.DigestBijection
import BranchingTime.Proofs.TableHistory
