import Relational.Proofs.Goal.Branches
import Relational.Proofs.Goal.Delay
import Relational.Proofs.Goal.Freshness
import Relational.Proofs.Goal.Overflow
import Relational.Proofs.Goal.Reordering
import Relational.Proofs.IntMap.Arithmetic
import Relational.Proofs.Json.RoundTrip
import Relational.Proofs.Query.Projection
import Relational.Proofs.Stream.Aftermath
import Relational.Proofs.Stream.Calls
import Relational.Proofs.Stream.Supply
import Relational.Proofs.Unification.Adding
import Relational.Proofs.Unification.Economy
import Relational.Proofs.Unification.Symmetry
