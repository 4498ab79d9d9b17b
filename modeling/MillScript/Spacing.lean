import MillScript.Value

/-! # Evenly spaced numbers -/

namespace MillScript

namespace Spacing

/-- Number `i` of `n` from `a` to `b`; both ends are exact. -/
def item (a b : Float) (n i : Nat) : Float :=
  if i + 1 = n ∧ 1 < n then b
  else if i = 0 then a
  else a + (b - a) * Float.ofNat i / Float.ofNat (n - 1)

/-- `count` numbers from `start` to `stop`, lengths in millimetres. -/
def items (start stop count : Quantity) (limit : Nat) : Except Fault (List Quantity) :=
  if start.isLength != stop.isLength then
    .error (TypeFault.spacingEnds start.kind stop.kind)
  else if !count.isWhole || count.value < 1 then .error (RuntimeFault.spacingCount count)
  else if Float.ofNat limit < count.value then .error (RuntimeFault.spacingLimit count limit)
  else
    let n := Decimal.floor count.value
    let unit := if start.isLength then some .mm else none
    .ok ((List.range n).map fun i => ⟨item start.canonical stop.canonical n i, unit⟩)

end Spacing

end MillScript
