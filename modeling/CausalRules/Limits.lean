/-!
# Limits on a rule program

The size of a text and the depth to which groups, states and lists may be nested.
-/

namespace CausalRules

/-- What a text may not exceed. -/
structure Limits where
  /-- Bytes of the text. -/
  maxInputBytes : Nat
  /-- Groups, states and lists that are open at the same time. -/
  maxNesting : Nat
  deriving DecidableEq, Repr

namespace Limits

/-- The largest sizes that settings may allow, which are also the ones in force without settings. -/
def caps : Limits := ⟨1048576, 32⟩

instance : Inhabited Limits := ⟨caps⟩

end Limits

end CausalRules
