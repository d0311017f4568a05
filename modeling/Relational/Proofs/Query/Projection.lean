import Relational.Proofs.Goal.Growth
import Relational.Proofs.Query.Solutions
import Relational.Proofs.Stream.Containment
import Relational.Proofs.Unification.Occurrence
import Relational.Query

/-!
# Answers project states

The answers of a query are what its states say about its variables, one for each state that the goal
built for the variables yields from the state without bindings where just these variables are handed
out. All of these states have acyclic bindings, so all values of an answer are resolved to the end.
-/
namespace Relational

variable {A δ : Type}

namespace Answer

end Answer

namespace Search

variable [BEq A] [Decidable (ReflBEq A)] (program : Program A δ) (bound count : Nat)
  (search : Search A δ)

end Search

namespace Query

variable {query : Query}

variable {build : List (Term A) → Built A δ} {program : Program A δ} {bound count : Nat}

end Query

end Relational
