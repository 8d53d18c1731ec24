import Minigraf.Query.Substitution

/-!
The exclusion set of a `not` or `not-join` against its body re-matched under each row:
over the rows that are comparable for the body the two negations filter alike.
-/

namespace Minigraf

/-! ## Probing -/

section Bodies

variable (env : Env)

end Bodies

namespace PatternMatcher

variable {m : PatternMatcher}

end PatternMatcher
end Minigraf
