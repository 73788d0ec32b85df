import DelayCall.Go.Slice
import Mathlib.Data.List.Sort

/-!
# `quickSort` and `partition`

`quickSort(arr, low, high)` (`concurrency/pipeline/main.go`) sorts
`arr[low..high]` in place with Lomuto's `partition`: the last element is the
pivot, the loop moves the elements below it to the front of the range, and a
final swap puts the pivot between the two parts.  `compareSort` calls it as
`quickSort(data3, 0, len(data3)-1)`.

The slice is a `List Int`, read and swapped as in `Go.Slice`.  The recursion of
`quickSort` is bounded by `fuel`.  Its depth is at most the length of the
range, so that much fuel always suffices.

The loop invariant of `partition` is a decomposition of the slice:
`A ++ L ++ G ++ U ++ pivot :: C`, with `A` and `C` outside the range, `L` the
elements found below the pivot, `G` those found not below it, and `U` those
not looked at yet.
-/

namespace Perf

open Go

/-- The loop of `partition`: `for j := ...; j <= high-1; j++ { if arr[j] <
pivot { i++; arr[i], arr[j] = arr[j], arr[i] } }`. -/
def partitionLoop (pivot high : Int) (i j : Int) (arr : List Int) : Option (Int × List Int) :=
  if j ≤ high - 1 then do
    let x ← get arr j
    if x < pivot then do
      let arr ← swap arr (i + 1) j
      partitionLoop pivot high (i + 1) (j + 1) arr
    else partitionLoop pivot high i (j + 1) arr
  else some (i, arr)
termination_by (high - j).toNat

/-- `partition`: the pivot's final index and the slice. -/
def partition (arr : List Int) (low high : Int) : Option (Int × List Int) := do
  let pivot ← get arr high
  let (i, arr) ← partitionLoop pivot high (low - 1) low arr
  let arr ← swap arr (i + 1) high
  pure (i + 1, arr)

/-- `quickSort`, allowed `fuel` levels of recursion. -/
def quickSort : Nat -> List Int -> Int -> Int -> Option (List Int)
  | 0, _, _, _ => none
  | fuel + 1, arr, low, high =>
    if low < high then do
      let (pi, arr) ← partition arr low high
      let arr ← quickSort fuel arr low (pi - 1)
      quickSort fuel arr (pi + 1) high
    else some arr

/-!
# `partition`
-/

section Partition

variable (pivot : Int) (A C : List Int)

theorem partitionLoop_spec : forall (U L G arr : List Int) (i j high : Int),
    (∀ x ∈ L, x < pivot) -> (∀ x ∈ G, ¬ x < pivot) -> arr = A ++ L ++ G ++ U ++ pivot :: C ->
    i = A.length - 1 + L.length -> j = A.length + L.length + G.length ->
    high = A.length + L.length + G.length + U.length ->
    exists L' G', partitionLoop pivot high i j arr =
        some ((A.length : Int) - 1 + L'.length, A ++ L' ++ G' ++ pivot :: C) ∧
      (∀ x ∈ L', x < pivot) ∧ (∀ x ∈ G', ¬ x < pivot) ∧ List.Perm (L' ++ G') (L ++ G ++ U)
  | [], L, G, arr, i, j, high, hL, hG, harr, hi, hj, hhigh => by
    refine ⟨L, G, ?_, hL, hG, by simp⟩
    rw [partitionLoop, if_neg (by simp at hhigh; omega), hi, harr]
    simp
  | x :: U, L, G, arr, i, j, high, hL, hG, harr, hi, hj, hhigh => by
    have hx : get arr j = some x := by
      rw [show arr = (A ++ L ++ G) ++ x :: (U ++ pivot :: C) by simp [harr]]
      exact get_mid _ _ x (by simp [hj]; omega)
    rw [partitionLoop, if_pos (by simp at hhigh; omega)]
    simp only [hx, Option.bind_eq_bind, Option.some_bind]
    by_cases hlt : x < pivot
    · rw [if_pos hlt]
      obtain ⟨arr', hs, G₁, harr', hperm, hG₁⟩ : exists arr', swap arr (i + 1) j = some arr' ∧
          exists G₁, arr' = A ++ (L ++ [x]) ++ G₁ ++ U ++ pivot :: C ∧
            List.Perm G₁ G ∧ G₁.length = G.length := by
        rcases G with _ | ⟨g, G⟩
        · refine ⟨arr, ?_, [], by simp [harr], List.Perm.refl _, rfl⟩
          rw [show arr = (A ++ L) ++ x :: (U ++ pivot :: C) by simp [harr]]
          exact swap_self _ _ x (by simp [hi]; omega) (by simp [hj])
        · refine ⟨(A ++ L) ++ x :: G ++ g :: (U ++ pivot :: C), ?_, G ++ [g], by simp,
            List.perm_append_singleton g G, by simp⟩
          rw [show arr = (A ++ L) ++ g :: G ++ x :: (U ++ pivot :: C) by simp [harr]]
          exact swap_mid _ _ _ g x (by simp [hi]; omega) (by simp [hj]; omega)
      obtain ⟨L', G', h, hL', hG', hp⟩ := partitionLoop_spec U (L ++ [x]) G₁ arr' (i + 1) (j + 1)
        high (fun y hy => (List.mem_append.1 hy).elim (hL y) fun h => by simp at h; exact h ▸ hlt)
        (fun y hy => hG y (hperm.subset hy)) harr' (by simp [hi]; omega)
        (by simp [hj, hG₁]; omega) (by simp [hhigh, hG₁]; omega)
      have hmid : List.Perm (L ++ [x] ++ G₁ ++ U) (L ++ G ++ x :: U) := by
        have h₁ : List.Perm (L ++ [x] ++ G₁ ++ U) (L ++ x :: (G ++ U)) := by
          simpa using ((hperm.append_right U).cons x).append_left L
        have h₂ : List.Perm (G ++ x :: U) (x :: (G ++ U)) := List.perm_middle
        simpa using h₁.trans (h₂.symm.append_left L)
      exact ⟨L', G', by rw [hs]; exact h, hL', hG', hp.trans hmid⟩
    · rw [if_neg hlt]
      obtain ⟨L', G', h, hL', hG', hp⟩ := partitionLoop_spec U L (G ++ [x]) arr i (j + 1) high hL
        (fun y hy => (List.mem_append.1 hy).elim (hG y) fun h => by simp at h; exact h ▸ hlt)
        (by simp [harr]) hi
        (by simp [hj]; omega) (by simp [hhigh]; omega)
      exact ⟨L', G', h, hL', hG', by simpa using hp⟩

theorem partition_spec (B : List Int) (low high : Int) (hlow : low = A.length)
    (hhigh : high = A.length + B.length) :
    exists L R, partition (A ++ B ++ pivot :: C) low high =
        some ((A.length : Int) + L.length, A ++ L ++ pivot :: R ++ C) ∧
      (∀ x ∈ L, x < pivot) ∧ (∀ x ∈ R, ¬ x < pivot) ∧ List.Perm (L ++ pivot :: R) (B ++ [pivot]) := by
  have hp : get (A ++ B ++ pivot :: C) high = some pivot := get_mid (A ++ B) C pivot (by simp [hhigh])
  obtain ⟨L, G, h, hL, hG, hperm⟩ := partitionLoop_spec pivot A C B [] [] (A ++ B ++ pivot :: C)
    (low - 1) low high (by simp) (by simp) (by simp) (by simp [hlow]) (by simp [hlow])
    (by simp [hhigh])
  have hlen := hperm.length_eq
  simp only [List.length_append, List.nil_append] at hlen
  obtain ⟨R, hs, hR, hRG⟩ : exists R,
      swap (A ++ L ++ G ++ pivot :: C) ((A.length : Int) - 1 + L.length + 1) high =
        some (A ++ L ++ pivot :: R ++ C) ∧ (∀ x ∈ R, ¬ x < pivot) ∧ List.Perm R G := by
    rcases G with _ | ⟨g, G⟩
    · refine ⟨[], ?_, by simp, List.Perm.refl _⟩
      simpa using swap_self (A ++ L) C pivot (by simp; omega) (by simp at hlen ⊢; omega)
    · refine ⟨G ++ [g], ?_, fun y hy => ?_, List.perm_append_singleton g G⟩
      · simpa using swap_mid (A ++ L) C G g pivot (by simp; omega) (by simp at hlen ⊢; omega)
      · rcases List.mem_append.1 hy with hy | hy
        · exact hG y (List.mem_cons_of_mem g hy)
        · exact (List.mem_singleton.1 hy) ▸ hG g (List.mem_cons_self g G)
  refine ⟨L, R, ?_, hL, hR, ?_⟩
  · simp only [partition, hp, h, hs, Option.bind_eq_bind, Option.some_bind, Option.pure_def]
    congr 2
    omega
  · have h₁ : List.Perm (L ++ pivot :: R) (pivot :: (L ++ G)) :=
      List.perm_middle.trans ((hRG.append_left L).cons pivot)
    exact h₁.trans ((List.Perm.cons pivot (by simpa using hperm)).trans
      (List.perm_append_singleton pivot B).symm)

end Partition

/-!
# `quickSort`
-/

theorem quickSort_spec : forall (fuel : Nat) (A B C arr : List Int) (low high : Int),
    B.length < fuel -> arr = A ++ B ++ C -> low = A.length -> high = A.length + B.length - 1 ->
    exists B', quickSort fuel arr low high = some (A ++ B' ++ C) ∧ List.Perm B' B ∧
      B'.Sorted (· ≤ ·)
  | 0, _, _, _, _, _, _, h, _, _, _ => absurd h (Nat.not_lt_zero _)
  | fuel + 1, A, B, C, arr, low, high, hfuel, harr, hlow, hhigh => by
    by_cases hlh : low < high
    · obtain ⟨B₀, pivot, rfl⟩ := (List.eq_nil_or_concat B).resolve_left (by
        rintro rfl
        simp at hhigh
        omega)
      rw [List.concat_eq_append] at hfuel harr hhigh
      simp only [List.length_append, List.length_singleton] at hfuel hhigh
      push_cast at hhigh
      obtain ⟨L, R, hpart, hL, hR, hperm⟩ :=
        partition_spec pivot A C B₀ low high hlow (by rw [hhigh]; omega)
      have hlen := hperm.length_eq
      simp only [List.length_append, List.length_cons, List.length_singleton, List.length_nil] at hlen
      obtain ⟨L', hq₁, hL'p, hL's⟩ := quickSort_spec fuel A L (pivot :: R ++ C)
        (A ++ L ++ pivot :: R ++ C) low ((A.length : Int) + L.length - 1) (by omega) (by simp) hlow
        rfl
      obtain ⟨R', hq₂, hR'p, hR's⟩ := quickSort_spec fuel (A ++ L' ++ [pivot]) R C
        (A ++ L' ++ (pivot :: R ++ C)) ((A.length : Int) + L.length + 1) high (by omega) (by simp)
        (by simp [hL'p.length_eq]; omega) (by simp [hhigh, hL'p.length_eq]; omega)
      refine ⟨L' ++ pivot :: R', ?_, ?_, ?_⟩
      · rw [quickSort, if_pos hlh, show arr = A ++ B₀ ++ pivot :: C by simp [harr]]
        simp only [hpart, Option.bind_eq_bind, Option.some_bind, hq₁, hq₂]
        simp
      · exact (hL'p.append (hR'p.cons pivot)).trans (by simpa using hperm)
      · refine List.pairwise_append.2 ⟨hL's, List.sorted_cons.2 ⟨fun b hb => ?_, hR's⟩, ?_⟩
        · exact not_lt.1 (hR b (hR'p.subset hb))
        · intro a ha b hb
          have hab : a < pivot := hL a (hL'p.subset ha)
          rcases List.mem_cons.1 hb with rfl | hb
          · exact hab.le
          · exact hab.le.trans (not_lt.1 (hR b (hR'p.subset hb)))
    · refine ⟨B, by rw [quickSort, if_neg hlh, harr], List.Perm.refl B, ?_⟩
      match B, hhigh with
      | [], _ => exact List.sorted_nil
      | [_], _ => exact List.sorted_singleton _
      | _ :: _ :: _, hhigh => simp at hhigh; omega

/-- `quickSort(arr, low, high)`, given more levels of recursion than its range
has elements, never reads out of range, sorts the range in place and leaves
the rest of the slice alone; `quickSort(arr, 0, len(arr)-1)`, as
`compareSort` calls it, so sorts the whole slice.  The loop of `partition`,
entered with `L` found below the pivot, `G` found not below it and `U` still
to look at, ends with the range split into the elements below the pivot and
the others. -/
theorem quickSort_sorts :
    (forall (A B C : List Int) (fuel : Nat), B.length < fuel ->
      exists B', quickSort fuel (A ++ B ++ C) A.length ((A.length : Int) + B.length - 1) =
          some (A ++ B' ++ C) ∧ List.Perm B' B ∧ B'.Sorted (· ≤ ·)) ∧
    (forall (pivot : Int) (A C U L G : List Int), (∀ x ∈ L, x < pivot) -> (∀ x ∈ G, ¬ x < pivot) ->
      exists L' G', partitionLoop pivot ((A.length : Int) + L.length + G.length + U.length)
          ((A.length : Int) - 1 + L.length) ((A.length : Int) + L.length + G.length)
          (A ++ L ++ G ++ U ++ pivot :: C) =
        some ((A.length : Int) - 1 + L'.length, A ++ L' ++ G' ++ pivot :: C) ∧
      (∀ x ∈ L', x < pivot) ∧ (∀ x ∈ G', ¬ x < pivot) ∧ List.Perm (L' ++ G') (L ++ G ++ U)) ∧
    (forall (arr : List Int) (fuel : Nat), arr.length < fuel ->
      exists sorted, quickSort fuel arr 0 (arr.length - 1) = some sorted ∧
        List.Perm sorted arr ∧ sorted.Sorted (· ≤ ·)) := by
  refine ⟨fun A B C fuel h => quickSort_spec fuel A B C _ _ _ h rfl rfl rfl,
    fun pivot A C U L G hL hG => partitionLoop_spec pivot A C U L G _ _ _ _ hL hG rfl rfl rfl rfl,
    fun arr fuel hfuel => ?_⟩
  obtain ⟨B', h, hp, hs⟩ := quickSort_spec fuel [] arr [] arr 0 (arr.length - 1) hfuel (by simp)
    rfl (by simp)
  exact ⟨B', by simpa using h, hp, hs⟩

end Perf
