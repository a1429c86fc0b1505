import RulesForge.Core.DateTimeOrder
import RulesForge.Core.ExactOrder
import RulesForge.Engine.ConditionEvaluation
import RulesForge.Engine.RhsComparison
import RulesForge.Engine.AccumulateRuns
import RulesForge.Engine.AccumulateTokens
import RulesForge.Engine.AlphaRuns
import RulesForge.Engine.ContinuousDelivery
import RulesForge.Engine.ContinuousRetention
import RulesForge.Engine.CycleState
import RulesForge.Engine.ContinuousStatus
import RulesForge.Engine.DelayedActivations
import RulesForge.Engine.EventTime
import RulesForge.Engine.ExpressionScope
import RulesForge.Engine.NoLoop
import RulesForge.Engine.RhsControlFlow
import RulesForge.Engine.RuleInheritance
import RulesForge.Engine.RuleMatches
import RulesForge.Engine.SessionPool
import RulesForge.Engine.SessionReset
import RulesForge.Engine.TokenDepth
import RulesForge.Engine.WindowRuns
import RulesForge.Parser.ConstraintLiterals
import RulesForge.Parser.ImportDiscovery
import RulesForge.Rete.Forall
import RulesForge.Rete.JoinChoice
import RulesForge.Engine.NestedElements
import RulesForge.Rete.RuntimePredicates
import RulesForge.Parser.TemporalWindows
import RulesForge.Capi.BinarySplitters
import RulesForge.Engine.NestedIds
import RulesForge.Parser.FieldReferences
import RulesForge.Rete.ValueHash
import RulesForge.Library.SupportMap
import RulesForge.Engine.SupportRuns
import RulesForge.Core.ValueOrder
import RulesForge.Library.ThreeWay
import RulesForge.Parser.RhsAnalysis
import RulesForge.Library.TokenLayout
import RulesForge.Parser.RhsLexer
import RulesForge.Parser.RhsExpressions
import RulesForge.Engine.TextReading
import RulesForge.Engine.RhsText
import RulesForge.Engine.RhsReading
import RulesForge.Engine.RhsTokens
import RulesForge.Rete.FlatFacts
import RulesForge.Engine.RhsTransactions
import RulesForge.Engine.RhsRollback
import RulesForge.Engine.ExactRuns
import RulesForge.Rete.BatchInsertion
import RulesForge.Capi.DataBindStreams
import RulesForge.Parser.DecisionTableText
import RulesForge.Parser.DecisionTableConstraints
import RulesForge.Parser.DecisionTableConditions
import RulesForge.Parser.DecisionTables
