import Decompiler.Batch.Arguments
import Decompiler.Batch.Files
import Decompiler.Batch.Path
import Decompiler.Batch.Run
import Decompiler.Bytecode.Assembler
import Decompiler.Bytecode.Constant
import Decompiler.Bytecode.Decode
import Decompiler.Bytecode.Instruction
import Decompiler.Bytecode.LabelTable
import Decompiler.Bytecode.Names
import Decompiler.Bytecode.Opcode
import Decompiler.Context
import Decompiler.Decimal.Binary
import Decompiler.Decimal.Text
import Decompiler.Decompile
import Decompiler.Diagnostic
import Decompiler.Error
import Decompiler.Flow.Cleanup
import Decompiler.Flow.Conditions
import Decompiler.Flow.Flatten
import Decompiler.Flow.FlowGraph
import Decompiler.Flow.Jumps
import Decompiler.Flow.Loops
import Decompiler.Flow.Recovery
import Decompiler.Graph.Digraph
import Decompiler.Graph.Dominators
import Decompiler.Graph.NodeSet
import Decompiler.Main
import Decompiler.Options
import Decompiler.Order
import Decompiler.Peephole.CountedLoop
import Decompiler.Peephole.Edit
import Decompiler.Peephole.Fixpoint
import Decompiler.Peephole.Join
import Decompiler.Peephole.Rule
import Decompiler.Peephole.ShortCircuit
import Decompiler.Peephole.Site
import Decompiler.Peephole.SwitchDispatch
import Decompiler.Peephole.Ternary
import Decompiler.Peephole.WithScope
import Decompiler.Print.CLike
import Decompiler.Print.Line
import Decompiler.Print.Lua
import Decompiler.Print.Outline
import Decompiler.Print.Precedence
import Decompiler.Print.Render
import Decompiler.Print.Token
import Decompiler.Stack.Depth
import Decompiler.Stack.Lowering
import Decompiler.Stack.Partition
import Decompiler.Stack.Simulation
import Decompiler.Syntax.Expr
import Decompiler.Syntax.Labels
import Decompiler.Syntax.MapExprs
import Decompiler.Syntax.Operator
import Decompiler.Syntax.Stmt
import Decompiler.Text
import Decompiler.Timing
import Decompiler.Proofs.Negation
import Decompiler.Proofs.Trace
import Decompiler.Proofs.TreeExecution
import Decompiler.Proofs.RedundantCode
import Decompiler.Proofs.StackMachine
import Decompiler.Proofs.StackSimulation
import Decompiler.Proofs.BlockLists
import Decompiler.Proofs.RuleEdits
import Decompiler.Proofs.Rewriting
import Decompiler.Proofs.EntryBlock
import Decompiler.Proofs.RecoverySteps
import Decompiler.Proofs.ConditionRecovery
import Decompiler.Proofs.DecodedCode
import Decompiler.Proofs.LoopRecovery
import Decompiler.Proofs.RuleSoundness
import Decompiler.Proofs.PartitionedCode
import Decompiler.Proofs.SimulatedBlocks
import Decompiler.Proofs.StatementKinds
import Decompiler.Proofs.UnitFaults
import Decompiler.Proofs.WellFormedUnits
import Decompiler.Proofs.KeptCode
import Decompiler.Proofs.LoopExecution
import Decompiler.Proofs.BalancedEdits
import Decompiler.Proofs.DepthFirstOrder
import Decompiler.Proofs.DominatorSweeps
import Decompiler.Proofs.DominatorTrees
import Decompiler.Proofs.DominanceFrontiers
import Decompiler.Proofs.TreePlaces
import Decompiler.Proofs.JumpFreeTrees
import Decompiler.Proofs.RemovedJumps
import Decompiler.Proofs.ConditionExecution
import Decompiler.Proofs.TiledCode
import Decompiler.Proofs.AssembledCode
import Decompiler.Proofs.RepeatedCleanup
import Decompiler.Proofs.RemainingJumps
import Decompiler.Proofs.QuietSweeps
import Decompiler.Proofs.FoldedStatements
import Decompiler.Proofs.DecreasingRanks
import Decompiler.Proofs.EntryDepths
import Decompiler.Proofs.FusedConditions
import Decompiler.Proofs.EditedLists
import Decompiler.Proofs.ExprTrees
import Decompiler.Proofs.ValuedExpressions
import Decompiler.Proofs.ConditionalValues
import Decompiler.Proofs.OperandOrder
import Decompiler.Proofs.JoinedSimulation
import Decompiler.Proofs.PartitionExecution
import Decompiler.Proofs.CaseOrder
import Decompiler.Proofs.ClosedCases
import Decompiler.Proofs.SortedSwitches
import Decompiler.Proofs.SwitchChains
import Decompiler.Proofs.DominatorWalks
import Decompiler.Proofs.LoopHeaders
import Decompiler.Proofs.EnclosedExits
import Decompiler.Proofs.ExpressionGrammar
import Decompiler.Proofs.ReadExpressions
import Decompiler.Proofs.PrintedParts
import Decompiler.Proofs.LegalLua
import Decompiler.Proofs.CountedRounds
import Decompiler.Proofs.FoldedValues
import Decompiler.Proofs.LogicalChains
import Decompiler.Proofs.LabelNames
import Decompiler.Proofs.WrittenOutputs
