import MillScript.Decimal.Exact
import MillScript.Fault

/-! # Dividing a cut into passes

    A cut deeper or wider than one pass allows is taken in equal passes, as
    few as keep each within the limit. -/

namespace MillScript.Machining

/-- A length that an operation needs to be above zero. -/
def requirePositive (what : String) (x : Float) : Except Fault Unit :=
  if 0 < x then .ok () else .error (RuntimeFault.notPositive what x)

/-- What a quotient may exceed a whole number by and still count as it. -/
def stepTolerance : Float := 1e-9

/-- The fewest equal steps over a distance, at least one, of which none is
    longer than `step`. -/
def stepCount (what : String) (distance step : Float) : Except Fault Nat := do
  requirePositive what step
  let exact := distance / step - stepTolerance
  if exact ≤ Float.ofNat maxSteps then
    let n := Decimal.ceil exact
    return if n = 0 then 1 else n
  else .error (RuntimeFault.tooManySteps what distance step)

/-- The passes down to a depth. -/
def depthPasses (depth stepdown : Float) : Except Fault Nat :=
  stepCount "stepdown" depth stepdown

/-- The depth after pass `k` of `n`; the last is exactly the depth asked
    for. -/
def passDepth (depth : Float) (k n : Int) : Float :=
  if k = n then depth else depth * Float.ofInt k / Float.ofInt n

end MillScript.Machining
