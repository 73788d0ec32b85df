import DelayCall.Go.Slice

/-!
# The two ways to fill a slice

`inefficientSliceGrowth(n)` (`concurrency/pipeline/main.go`) appends
`0, 1, ..., n-1` to a nil slice.  `efficientSliceGrowth(n)` makes a slice of
`n` zeros first and then assigns `result[i] = i`.  For `n ≥ 0` both return
`[0, 1, ..., n-1]`.  For a negative `n` they differ: the loop of the first
does not run and it returns an empty slice, while `make([]int, n)` panics.
The `PerformanceTracker` of both only measures time and memory.
-/

namespace Perf

open Go

/-- The loop of `inefficientSliceGrowth`: `result = append(result, i)`. -/
def appendLoop (n i : Int) (result : List Int) : List Int :=
  if i < n then appendLoop n (i + 1) (result ++ [i]) else result
termination_by (n - i).toNat

/-- `inefficientSliceGrowth`. -/
def inefficientSliceGrowth (n : Int) : List Int := appendLoop n 0 []

/-- `make([]int, n)`: `n` zeros; a negative length panics. -/
def makeSlice (n : Int) : Option (List Int) :=
  if 0 ≤ n then some (List.replicate n.toNat 0) else none

/-- The loop of `efficientSliceGrowth`: `result[i] = i`. -/
def assignLoop (n i : Int) (result : List Int) : Option (List Int) :=
  if i < n then do
    let result ← set result i i
    assignLoop n (i + 1) result
  else some result
termination_by (n - i).toNat

/-- `efficientSliceGrowth`. -/
def efficientSliceGrowth (n : Int) : Option (List Int) := do
  let result ← makeSlice n
  assignLoop n 0 result

def ints (i : Int) : Nat -> List Int
  | 0 => []
  | k + 1 => i :: ints (i + 1) k

theorem appendLoop_eq : forall (k : Nat) (n i : Int) (result : List Int), n - i = k ->
    appendLoop n i result = result ++ ints i k
  | 0, n, i, result, h => by
    rw [appendLoop, if_neg (by omega)]
    simp [ints]
  | k + 1, n, i, result, h => by
    rw [appendLoop, if_pos (by omega), appendLoop_eq k n (i + 1) _ (by omega), ints]
    simp

theorem assignLoop_eq : forall (k : Nat) (n i : Int) (A : List Int), n - i = k ->
    i = A.length -> assignLoop n i (A ++ List.replicate k 0) = some (A ++ ints i k)
  | 0, n, i, A, h, _ => by
    rw [assignLoop, if_neg (by omega)]
    simp [ints]
  | k + 1, n, i, A, h, hA => by
    rw [assignLoop, if_pos (by omega), List.replicate_succ, set_at_mid A _ 0 i hA]
    simp only [Option.bind_eq_bind, Option.some_bind]
    rw [show A ++ i :: List.replicate k 0 = (A ++ [i]) ++ List.replicate k 0 by simp,
      assignLoop_eq k n (i + 1) (A ++ [i]) (by omega) (by simp [hA]), ints]
    simp

/-- Both functions fill the slice with `0, 1, ..., n-1`, except that for a
negative `n`, `make([]int, n)` panics where the appending loop returns an
empty slice. -/
theorem sliceGrowth_agree (n : Int) :
    inefficientSliceGrowth n = ints 0 n.toNat ∧
      efficientSliceGrowth n = if 0 ≤ n then some (inefficientSliceGrowth n) else none := by
  have happ : inefficientSliceGrowth n = ints 0 n.toNat := by
    by_cases hn : 0 ≤ n
    · exact appendLoop_eq n.toNat n 0 [] (by omega)
    · rw [inefficientSliceGrowth, appendLoop, if_neg (by omega), show n.toNat = 0 by omega]
      rfl
  refine ⟨happ, ?_⟩
  by_cases hn : 0 ≤ n
  · rw [if_pos hn, happ, efficientSliceGrowth, makeSlice, if_pos hn]
    simpa using assignLoop_eq n.toNat n 0 [] (by omega) rfl
  · simp [efficientSliceGrowth, makeSlice, hn]

end Perf
