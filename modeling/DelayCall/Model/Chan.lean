import DelayCall.Go.Chan

/-!
# Requests and their channels

The data of `delaycall/main.go`: the `Request` record (lines 13-18) and the
capacities of the buffered channels it travels through, `Go.Chan Request`:
`externalCh` (line 25) and the per-key channels of line 46.
-/

namespace DelayCall

/-- A request that may need delayed handling (`Request`, lines 13-18). -/
structure Request where
  uid : String
  payload : String
  needsDelay : Bool
  id : BitVec 64
  deriving DecidableEq, Repr

/-- Capacity of `externalCh` (line 25). -/
def externalCap : Nat := 100

/-- Capacity of each per-key channel made by `processor` (line 46). -/
def delayerCap : Nat := 1000

end DelayCall
