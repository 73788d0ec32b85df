import DelayCall.Perf.QuickSort

/-!
# `bubbleSort`, and the three sorts of `compareSort`

`bubbleSort(arr)` (`concurrency/pipeline/main.go`) makes `n - 1` passes over
the slice.  Pass `i` compares each pair `arr[j], arr[j+1]` with `j < n-i-1` and
swaps it when it is out of order, so the largest element of `arr[0..n-i-1]`
ends at index `n-i-1`.  `compareSort` sorts three copies of its data, with
`sort.Ints`, `bubbleSort` and `quickSort`.  On every input the three copies end
up equal: each is the one sorted permutation of the data.

A pass's invariant is a decomposition of the slice, `P ++ m :: U ++ S`: `m` is
the element the pass carries, no element of `P` is above it, `U` is still to
be compared, and `S` is the sorted part that earlier passes have left at the
end.
-/

namespace Perf

open Go

/-- The inner loop of pass `i`: `for j := ...; j < n-i-1; j++ { if arr[j] >
arr[j+1] { arr[j], arr[j+1] = arr[j+1], arr[j] } }`. -/
def bubblePass (n i j : Int) (arr : List Int) : Option (List Int) :=
  if j < n - i - 1 then do
    let a ← get arr j
    let b ← get arr (j + 1)
    let arr ← if a > b then swap arr j (j + 1) else pure arr
    bubblePass n i (j + 1) arr
  else some arr
termination_by (n - i - 1 - j).toNat

/-- The outer loop: `for i := ...; i < n-1; i++ { ... }`. -/
def bubbleLoop (n i : Int) (arr : List Int) : Option (List Int) :=
  if i < n - 1 then do
    let arr ← bubblePass n i 0 arr
    bubbleLoop n (i + 1) arr
  else some arr
termination_by (n - 1 - i).toNat

/-- `bubbleSort`: the slice after both loops, with `n := len(arr)`. -/
def bubbleSort (arr : List Int) : Option (List Int) := bubbleLoop arr.length 0 arr

/-- `compareSort`: the three copies of `data` after `sort.Ints`, `bubbleSort`,
and `quickSort(data3, 0, len(data3)-1)` given one level of recursion more than
`data` has elements.  `sort.Ints` is the library's sort; its result is the
sorted permutation, `List.insertionSort` here. -/
def compareSort (data : List Int) : Option (List Int × List Int × List Int) := do
  let data2 ← bubbleSort data
  let data3 ← quickSort (data.length + 1) data 0 (data.length - 1)
  pure (data.insertionSort (· ≤ ·), data2, data3)

theorem bubblePass_spec (n i : Int) (S : List Int) : forall (U P : List Int) (m : Int)
    (arr : List Int) (j : Int), arr = P ++ m :: U ++ S -> j = P.length ->
    n - i - 1 = P.length + U.length -> (∀ x ∈ P, x ≤ m) ->
    exists P' m', bubblePass n i j arr = some (P' ++ m' :: S) ∧ (∀ x ∈ P', x ≤ m') ∧
      List.Perm (P' ++ [m']) (P ++ m :: U)
  | [], P, m, arr, j, harr, hj, hn, hP => by
    refine ⟨P, m, ?_, hP, by simp⟩
    rw [bubblePass, if_neg (by simp at hn; omega), harr]
    simp
  | u :: U, P, m, arr, j, harr, hj, hn, hP => by
    have ha : get arr j = some m := by
      rw [harr, show P ++ m :: u :: U ++ S = P ++ m :: (u :: U ++ S) by simp]
      exact get_mid _ _ _ hj
    have hb : get arr (j + 1) = some u := by
      rw [harr, show P ++ m :: u :: U ++ S = (P ++ [m]) ++ u :: (U ++ S) by simp]
      exact get_mid _ _ _ (by simp [hj])
    rw [bubblePass, if_pos (by simp at hn; omega)]
    simp only [ha, hb, Option.bind_eq_bind, Option.some_bind]
    by_cases hmu : m > u
    · have hs : swap arr j (j + 1) = some (P ++ u :: m :: U ++ S) := by
        rw [harr, show P ++ m :: u :: U ++ S = P ++ m :: [] ++ u :: (U ++ S) by simp]
        simpa using swap_mid P (U ++ S) [] m u hj (by simp [hj])
      obtain ⟨P', m', h, hP', hperm⟩ := bubblePass_spec n i S U (P ++ [u]) m
        (P ++ u :: m :: U ++ S) (j + 1) (by simp)
        (by simp [hj]) (by simp at hn ⊢; omega)
        (fun x hx => (List.mem_append.1 hx).elim (hP x) fun h => by simp at h; omega)
      refine ⟨P', m', by rw [if_pos hmu, hs]; exact h, hP', hperm.trans ?_⟩
      simpa using ((List.Perm.swap m u U).append_left P)
    · obtain ⟨P', m', h, hP', hperm⟩ := bubblePass_spec n i S U (P ++ [m]) u arr (j + 1)
        (by simp [harr]) (by simp [hj]) (by simp at hn ⊢; omega)
        (fun x hx => (List.mem_append.1 hx).elim (fun hx => (hP x hx).trans (not_lt.1 hmu))
          fun h => by simp at h; omega)
      exact ⟨P', m', by rw [if_neg hmu]; exact h, hP', by simpa using hperm⟩

theorem bubbleLoop_spec (n : Int) : forall (k : Nat) (R S arr : List Int) (i : Int),
    R.length = k -> arr = R ++ S -> n - i = R.length -> S.Sorted (· ≤ ·) ->
    (∀ x ∈ R, ∀ y ∈ S, x ≤ y) ->
    exists T, bubbleLoop n i arr = some T ∧ List.Perm T (R ++ S) ∧ T.Sorted (· ≤ ·)
  | 0, R, S, arr, i, hk, harr, hn, hS, _ => by
    obtain rfl := List.eq_nil_of_length_eq_zero hk
    refine ⟨arr, ?_, by simp [harr], by simpa [harr] using hS⟩
    rw [bubbleLoop, if_neg (by simp at hn; omega)]
  | k + 1, R, S, arr, i, hk, harr, hn, hS, hRS => by
    obtain ⟨m, U, rfl⟩ := List.exists_cons_of_length_eq_add_one hk
    by_cases hi : i < n - 1
    · obtain ⟨P', m', hpass, hP', hperm⟩ := bubblePass_spec n i S U [] m arr 0 (by simp [harr])
        rfl (by simp at hn ⊢; omega) (by simp)
      have hmem : forall x, x ∈ P' ++ [m'] -> x ∈ m :: U := fun x hx => by
        simpa using hperm.subset hx
      have hlen := hperm.length_eq
      simp only [List.length_append, List.length_singleton, List.nil_append,
        List.length_cons, List.length_nil] at hlen
      obtain ⟨T, hloop, hTp, hTs⟩ := bubbleLoop_spec n k P' (m' :: S) (P' ++ m' :: S) (i + 1)
        (by simp at hk; omega) rfl (by simp at hn; omega)
        (List.sorted_cons.2 ⟨hRS m' (hmem m' (by simp)), hS⟩)
        (fun x hx y hy => (List.mem_cons.1 hy).elim (fun h => h ▸ hP' x hx)
          fun hy => hRS x (hmem x (by simp [hx])) y hy)
      refine ⟨T, ?_, hTp.trans ?_, hTs⟩
      · rw [bubbleLoop, if_pos hi]
        simp only [hpass, Option.bind_eq_bind, Option.some_bind, hloop]
      · simpa using hperm.append_right S
    · refine ⟨arr, ?_, by simp [harr], ?_⟩
      · rw [bubbleLoop, if_neg hi]
      · obtain rfl : U = [] := List.eq_nil_of_length_eq_zero (by simp at hn; omega)
        rw [harr]
        exact List.sorted_cons.2 ⟨fun y hy => hRS m (by simp) y hy, hS⟩

theorem bubbleSort_spec (arr : List Int) :
    exists T, bubbleSort arr = some T ∧ List.Perm T arr ∧ T.Sorted (· ≤ ·) := by
  obtain ⟨T, h, hp, hs⟩ := bubbleLoop_spec arr.length arr.length arr [] arr 0 rfl (by simp)
    (by simp) List.sorted_nil (by simp)
  exact ⟨T, h, by simpa using hp, hs⟩

/-- On every input, `compareSort`'s three sorts leave the same slice: the sorted
permutation of `data`. -/
theorem compareSort_agree (data : List Int) :
    compareSort data = some (data.insertionSort (· ≤ ·), data.insertionSort (· ≤ ·),
      data.insertionSort (· ≤ ·)) := by
  have hsorted := List.sorted_insertionSort (· ≤ ·) data
  have hperm := List.perm_insertionSort (· ≤ ·) data
  obtain ⟨T, hb, hbp, hbs⟩ := bubbleSort_spec data
  obtain ⟨Q, hq, hqp, hqs⟩ := quickSort_spec (data.length + 1) [] data [] data 0
    (data.length - 1) (by omega) (by simp) rfl (by simp)
  have hT : T = data.insertionSort (· ≤ ·) :=
    List.eq_of_perm_of_sorted (hbp.trans hperm.symm) hbs hsorted
  have hQ : Q = data.insertionSort (· ≤ ·) :=
    List.eq_of_perm_of_sorted (hqp.trans hperm.symm) hqs hsorted
  simp only [List.nil_append, List.append_nil] at hq
  simp [compareSort, hb, hq, hT, hQ]

end Perf
