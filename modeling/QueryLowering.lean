import QueryLowering.Catalog.Definition
import QueryLowering.Compiler
import QueryLowering.Execution
import QueryLowering.Expr.Lemmas
import QueryLowering.Profile
import QueryLowering.Sample
import QueryLowering.Proofs.CacheTransparency
import QueryLowering.Proofs.Everywhere
import QueryLowering.Proofs.Agreement
import QueryLowering.Proofs.Persistence.Navigation
import QueryLowering.Proofs.Persistence
import QueryLowering.Proofs.Invocations
import QueryLowering.Proofs.Settled.Rules
import QueryLowering.Proofs.Settled.Navigation
import QueryLowering.Proofs.Settled.DatabaseFunction
import QueryLowering.Proofs.Settled
import QueryLowering.Proofs.MarkerOrigin
import QueryLowering.Proofs.Placeholders
import QueryLowering.Proofs.Placeholders.Rules
import QueryLowering.Proofs.Placeholders.Navigation
import QueryLowering.Proofs.Placeholders.Lowering
import QueryLowering.Proofs.Extraction
import QueryLowering.Proofs.Parameterization
import QueryLowering.Proofs.Verification
import QueryLowering.Proofs.CacheHistory
import QueryLowering.Proofs.IndexedCache
import QueryLowering.Proofs.Expansion
import QueryLowering.Proofs.Aliases
import QueryLowering.Proofs.Diagnostics
import QueryLowering.Proofs.Capture
import QueryLowering.Proofs.Flattening
import QueryLowering.Proofs.Pushdown
import QueryLowering.Proofs.JoinScope
import QueryLowering.Proofs.JoinPaths
import QueryLowering.Proofs.ExpansionSucceeds
import QueryLowering.Proofs.JoinTable
import QueryLowering.Proofs.GuardPlaces
import QueryLowering.Proofs.GuardStability
import QueryLowering.Proofs.DefaultRows
import QueryLowering.Proofs.GuardMeaning
import QueryLowering.Proofs.JoinKinds
import QueryLowering.Proofs.Overloads
import QueryLowering.Proofs.Typing
import QueryLowering.Proofs.KeyTests
import QueryLowering.Proofs.KeyComparison
import QueryLowering.Proofs.ComparisonDuality
import QueryLowering.Proofs.FunctionPlaces
import QueryLowering.Proofs.KeyCoverage
import QueryLowering.Proofs.Promotion
import QueryLowering.Proofs.LiteralPlaces
import QueryLowering.Proofs.InliningDepth
import QueryLowering.Proofs.InliningTermination
import QueryLowering.Proofs.Membership
import QueryLowering.Proofs.RecordedMarkers
import QueryLowering.Proofs.SettingChanges
import QueryLowering.Proofs.Substitution
import QueryLowering.Proofs.LeftoverUses
import QueryLowering.Proofs.Rebuilding
