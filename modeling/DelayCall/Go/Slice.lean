import Mathlib.Data.List.Basic

/-!
# Go slices

A slice's elements are a list, and its `int` indices are `Int`.  Reading,
writing or swapping at an index out of range is a run-time panic, here
`none`.  The lemmas read, write and swap at positions given by a decomposition
of the list, `A ++ x :: B`, so that later proofs rearrange lists instead of
counting indices.
-/

namespace Go

variable {α : Type}

/-- `s[k]`. -/
def get (s : List α) (k : Int) : Option α :=
  if 0 ≤ k then s[k.toNat]? else none

/-- `s[k] = v`. -/
def set (s : List α) (k : Int) (v : α) : Option (List α) :=
  if 0 ≤ k ∧ k < s.length then some (s.set k.toNat v) else none

/-- `s[a], s[b] = s[b], s[a]`. -/
def swap (s : List α) (a b : Int) : Option (List α) := do
  let x ← get s a
  let y ← get s b
  pure ((s.set a.toNat y).set b.toNat x)

variable (A B M : List α) (x y : α)

theorem get_mid {k : Int} (hk : k = A.length) : get (A ++ x :: B) k = some x := by
  subst hk
  rw [get, if_pos (by omega), Int.toNat_ofNat, List.getElem?_append_right (le_refl _),
    Nat.sub_self, List.getElem?_cons_zero]

theorem set_mid : (A ++ x :: B).set A.length y = A ++ y :: B := by
  induction A with
  | nil => rfl
  | cons a A ih => simp [ih]

theorem set_at_mid {k : Int} (hk : k = A.length) : set (A ++ x :: B) k y = some (A ++ y :: B) := by
  subst hk
  rw [set, if_pos ⟨by omega, by simp only [List.length_append, List.length_cons]; omega⟩,
    Int.toNat_ofNat, set_mid]

theorem swap_self {a b : Int} (ha : a = A.length) (hb : b = A.length) :
    swap (A ++ x :: B) a b = some (A ++ x :: B) := by
  have ha' : a.toNat = A.length := by omega
  have hb' : b.toNat = A.length := by omega
  rw [swap, get_mid A B x ha, get_mid A B x hb]
  show some (((A ++ x :: B).set a.toNat x).set b.toNat x) = _
  rw [ha', hb', set_mid, set_mid]

theorem swap_mid {a b : Int} (ha : a = A.length) (hb : b = A.length + M.length + 1) :
    swap (A ++ x :: M ++ y :: B) a b = some (A ++ y :: M ++ x :: B) := by
  have hx : get (A ++ x :: M ++ y :: B) a = some x := by
    simpa using get_mid A (M ++ y :: B) x ha
  have hy : get (A ++ x :: M ++ y :: B) b = some y :=
    get_mid (A ++ x :: M) B y (by simp [hb]; omega)
  have ha' : a.toNat = A.length := by omega
  have hb' : b.toNat = (A ++ y :: M).length := by simp; omega
  rw [swap, hx, hy]
  show some (((A ++ x :: M ++ y :: B).set a.toNat y).set b.toNat x) = _
  rw [ha', hb', List.append_assoc, List.cons_append, set_mid, ← List.cons_append,
    ← List.append_assoc, set_mid]

end Go
