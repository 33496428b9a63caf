import Treewalk.Decimal.Layout
import Treewalk.Decimal.Rounding
import Treewalk.Json
import Treewalk.Text.Utf8
import Treewalk.Token.Lexer
import Treewalk.Syntax.Parser
import Treewalk.Syntax.Printer
import Treewalk.Syntax.Json
import Treewalk.Binding
import Treewalk.Store
import Treewalk.Sink
import Treewalk.Evaluation
import Treewalk.Session
import Treewalk.CommandLine
import Treewalk.Main
import Treewalk.Proofs.Syntax.Numbering
import Treewalk.Proofs.Token.Words
import Treewalk.Proofs.Binding.Placement
import Treewalk.Proofs.Binding.Settling
import Treewalk.Proofs.Evaluation.Discipline
import Treewalk.Proofs.Evaluation.Soundness
import Treewalk.Proofs.Evaluation.SoundRuns
import Treewalk.Proofs.Session.History
import Treewalk.Proofs.Session.Soundness
import Treewalk.Proofs.Simulation.Likeness
import Treewalk.Proofs.Simulation.Machines
import Treewalk.Proofs.Simulation.Matching
import Treewalk.Proofs.Simulation.Runs
import Treewalk.Proofs.Simulation.Carrying
import Treewalk.Proofs.Session.Forgetting
import Treewalk.Proofs.Syntax.Continuation
import Treewalk.Proofs.Syntax.Joining
import Treewalk.Proofs.Binding.Joining
import Treewalk.Proofs.Session.Acceptance
import Treewalk.Proofs.Simulation.Erasing
import Treewalk.Proofs.Session.Incremental
import Treewalk.Proofs.Syntax.Respelling
import Treewalk.Proofs.Binding.Distinctness
import Treewalk.Proofs.Binding.Respelling
import Treewalk.Proofs.Simulation.Respelling
import Treewalk.Proofs.Session.Respelling
import Treewalk.Proofs.Binding.Situation
import Treewalk.Proofs.Binding.Situating
import Treewalk.Proofs.Evaluation.Entering
import Treewalk.Proofs.Evaluation.Lineage
import Treewalk.Proofs.Evaluation.Charts
import Treewalk.Proofs.Evaluation.Watching
import Treewalk.Proofs.Evaluation.ChartedRuns
import Treewalk.Proofs.Evaluation.ChartedMoments
import Treewalk.Proofs.Session.Charting
import Treewalk.Proofs.Session.Lookups
import Treewalk.Proofs.Session.Dispatch
import Treewalk.Proofs.Syntax.Grammar
import Treewalk.Proofs.Syntax.Derivation
import Treewalk.Proofs.Syntax.Recognition
import Treewalk.Proofs.Syntax.Acceptance
import Treewalk.Proofs.Binding.Lexical
import Treewalk.Proofs.Session.Rejection
import Treewalk.Proofs.Token.Munch
import Treewalk.Proofs.Token.Rounds
import Treewalk.Proofs.Session.Retention
import Treewalk.Proofs.Evaluation.Acting
import Treewalk.Proofs.Evaluation.Filling
import Treewalk.Proofs.Session.Filling
import Treewalk.Proofs.Syntax.Printing
import Treewalk.Proofs.Session.Printing
import Treewalk.Proofs.Syntax.Nesting
import Treewalk.Proofs.Syntax.Names
import Treewalk.Proofs.Syntax.Structure
import Treewalk.Proofs.Syntax.Ladder
import Treewalk.Proofs.Syntax.Rereading
import Treewalk.Proofs.Syntax.Resumption
import Treewalk.Proofs.Store.Reach
import Treewalk.Proofs.Evaluation.Confinement
import Treewalk.Proofs.Evaluation.ConfinedRuns
import Treewalk.Proofs.Session.Restoration
import Treewalk.Proofs.Syntax.Budget
import Treewalk.Proofs.Syntax.Progress
import Treewalk.Proofs.Binding.Checking
import Treewalk.Proofs.Evaluation.Moments
import Treewalk.Proofs.Evaluation.Returning
import Treewalk.Proofs.Evaluation.Origins
import Treewalk.Proofs.Evaluation.KnownRuns
import Treewalk.Proofs.Session.Happening
import Treewalk.Proofs.Session.Construction
import Treewalk.Proofs.Evaluation.Stability
import Treewalk.Proofs.Binding.Thinning
import Treewalk.Proofs.Thinning.Alignment
import Treewalk.Proofs.Thinning.Actions
import Treewalk.Proofs.Thinning.Runs
import Treewalk.Proofs.Evaluation.ForLoops
import Treewalk.Proofs.Thinning.Lagging
import Treewalk.Proofs.Thinning.Rounds
import Treewalk.Proofs.Thinning.Beginnings
import Treewalk.Proofs.Evaluation.SoundMoments
import Treewalk.Proofs.Session.Looping
import Treewalk.Proofs.Session.Numbers
import Treewalk.Proofs.Token.Lines
import Treewalk.Proofs.Store.Chains
import Treewalk.Proofs.Evaluation.Regime
import Treewalk.Proofs.Evaluation.GovernedRuns
import Treewalk.Proofs.Session.Governing
import Treewalk.Proofs.Evaluation.Ages
import Treewalk.Proofs.Session.Declaring
import Treewalk.Proofs.Token.Rejoining
import Treewalk.Proofs.Decimal.Reading
import Treewalk.Proofs.Decimal.Literals
import Treewalk.Proofs.Session.Ordering
import Treewalk.Proofs.Evaluation.Receivers
import Treewalk.Proofs.Session.Unchecked
