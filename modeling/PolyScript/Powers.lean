/-!
# Powers

Powers of natural numbers and integers are those of the core library, in every module. A
library of algebra brings powers of its own. These are equal, but they are other
definitions, and no definition here should be another one for being read next to such a
library.
-/

namespace PolyScript

-- The first of the two to be tried, because a numeral is a natural number by default.
@[default_instance 30000]
scoped instance (priority := high) natPow : Pow Nat Nat := instPowNat

@[default_instance 20000]
scoped instance (priority := high) intPow : Pow Int Nat := instPowNat

end PolyScript
