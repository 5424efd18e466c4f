import Std.Data.ExtTreeSet

/-!
# Sets of names

Names are ordered by their characters, and a set of them lists its members in that order.
-/

namespace CallAtlas

/-- A finite set of names. -/
abbrev NameSet := Std.ExtTreeSet String

end CallAtlas
