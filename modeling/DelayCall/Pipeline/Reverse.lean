import DelayCall.Go.Slice

/-!
# `reverseString`

`reverseString` (`concurrency/pipeline/main.go`), which `transformationStage`
applies to values that do not parse as numbers, turns the string into its
runes.  It then swaps runes from both ends towards the middle.  A Lean
`String` is a list of Unicode scalar values, the runes Go decodes from a
valid UTF-8 string.

The loop invariant splits the runes into the part not yet touched, `M`, between
the swapped ends: the runes are `S.reverse ++ M ++ P.reverse` where the string
was `P ++ M ++ S`.
-/

namespace PipelineDemo

open Go

/-- `for i, j := 0, len(runes)-1; i < j; i, j = i+1, j-1 { runes[i], runes[j]
= runes[j], runes[i] }`. -/
def reverseLoop (i j : Int) (runes : List Char) : Option (List Char) :=
  if i < j then do
    let runes ← swap runes i j
    reverseLoop (i + 1) (j - 1) runes
  else some runes
termination_by (j - i).toNat

/-- `reverseString`. -/
def reverseString (s : String) : Option String := do
  let runes ← reverseLoop 0 (s.length - 1) s.toList
  pure (String.mk runes)

theorem reverseLoop_spec : forall (n : Nat) (M P S : List Char) (i j : Int),
    M.length ≤ n -> P.length = S.length -> i = P.length -> j = P.length + M.length - 1 ->
    reverseLoop i j (S.reverse ++ M ++ P.reverse) = some (P ++ M ++ S).reverse
  | n, M, P, S, i, j, hn, hPS, hi, hj => by
    rw [reverseLoop]
    by_cases hij : i < j
    · rw [if_pos hij]
      rcases List.eq_nil_or_concat M with rfl | ⟨_ | ⟨a, M'⟩, b, rfl⟩
      · simp at hj; omega
      · simp at hj; omega
      rw [List.concat_eq_append] at hn hj ⊢
      simp only [List.length_cons, List.length_append, List.length_nil] at hn hj
      obtain ⟨m, rfl⟩ : exists m, n = m + 2 := ⟨n - 2, by omega⟩
      have hs := swap_mid S.reverse P.reverse M' a b (a := i) (b := j) (by simp [hi, hPS])
        (by simp [hj, hPS]; omega)
      simp only [List.cons_append, List.nil_append, List.append_assoc] at hs ⊢
      rw [hs]
      have := reverseLoop_spec m M' (P ++ [a]) (b :: S) (i + 1) (j - 1) (by omega)
        (by simp [hPS]) (by simp [hi]) (by simp [hj]; omega)
      simpa using this
    · rw [if_neg hij]
      match M, hj with
      | [], _ => simp
      | [_], _ => simp
      | _ :: _ :: _, hj => simp at hj; omega

theorem reverseString_spec (s : String) : reverseString s = some (String.mk s.toList.reverse) := by
  have h := reverseLoop_spec s.toList.length s.toList [] [] 0 (s.length - 1) le_rfl rfl rfl
    (show (s.length : Int) - 1 = ((0 : Nat) : Int) + s.length - 1 by omega)
  simp only [List.reverse_nil, List.nil_append, List.append_nil] at h
  rw [reverseString, h]
  rfl

/-- On a Lean string, which holds valid UTF-8 only, `reverseString` never
indexes out of range and returns the runes in reverse order.  Its loop, on
runes `S.reverse ++ M ++ P.reverse` of a string `P ++ M ++ S` with the ends
`P` and `S` already swapped, reverses the rest. -/
theorem reverseString_eq :
    (forall (M P S : List Char), P.length = S.length ->
      reverseLoop P.length ((P.length : Int) + M.length - 1) (S.reverse ++ M ++ P.reverse) =
        some (P ++ M ++ S).reverse) ∧
    forall s : String, reverseString s = some (String.mk s.toList.reverse) :=
  ⟨fun M P S h => reverseLoop_spec M.length M P S _ _ le_rfl h rfl rfl, reverseString_spec⟩

end PipelineDemo
