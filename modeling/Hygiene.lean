import Hygiene.Main
import Hygiene.Proofs.Expand.Separation
import Hygiene.Proofs.Expand.Phases
import Hygiene.Proofs.Expand.Linkage
import Hygiene.Proofs.Expand.Hidden
import Hygiene.Proofs.Expand.OwnName
import Hygiene.Proofs.Lexical.Scoping
import Hygiene.Proofs.Token.Rendering
import Hygiene.Proofs.Grammar.RoundTrip
import Hygiene.Proofs.Loading.Running
import Hygiene.Proofs.Expand.Arrow
import Hygiene.Proofs.Expand.Budget
import Hygiene.Proofs.Expand.Bodies
import Hygiene.Proofs.Location.Output
import Hygiene.Proofs.Loading.Dialects
import Hygiene.Proofs.Output.Options
import Hygiene.Proofs.Layout.Programs
import Hygiene.Proofs.Expand.Signals
import Hygiene.Proofs.Eval.Schedule
import Hygiene.Proofs.Eval.Hoisting
import Hygiene.Proofs.Eval.Arrays
import Hygiene.Proofs.Eval.Closures
import Hygiene.Proofs.Eval.Tidy
import Hygiene.Proofs.Template.Substitution
import Hygiene.Proofs.Loading.Exports
import Hygiene.Proofs.Value.Equality
import Hygiene.Proofs.Source.Lines
import Hygiene.Proofs.Expand.FreshNames
import Hygiene.Proofs.Scope.Laws
import Hygiene.Proofs.Eval.Frames
import Hygiene.Proofs.Value.Search
