/-! Sets of characters given by the code points at which membership changes. -/
namespace DesignTokens.Text

/-- Whether a code point lies in the set whose members begin and end in turn at the ascending
`bounds`: an odd number of bounds lies at or before each member. -/
def withinBounds (bounds : List Nat) (c : Nat) : Bool :=
  (bounds.takeWhile (· ≤ c)).length % 2 == 1

end DesignTokens.Text
