import DelayCall.Model.Machine

/-!
# The ordering monitor of `init`

`init` (lines 129-142) starts a goroutine that reads the ids on `checkCh` in
order and panics unless each is one more than the one before, starting from 0.
It only reads `checkCh`, so what it has read at any moment is a prefix of
`State.checkCh`, and it panics on some prefix exactly when it panics on the
whole.  `monitor` runs it over a list of ids; `none` is the panic.
-/

namespace DelayCall

/-- The loop of the goroutine in `init`, from `nextId`. -/
def monitor (nextId : BitVec 64) : List (BitVec 64) -> Option (BitVec 64)
  | [] => some nextId
  | id :: rest => if nextId ≠ id then none else monitor (id + 1) rest

@[simp] theorem monitor_nil (nextId : BitVec 64) : monitor nextId [] = some nextId := rfl

theorem monitor_append (nextId : BitVec 64) (ids ids' : List (BitVec 64)) :
    monitor nextId (ids ++ ids') = (monitor nextId ids).bind fun n => monitor n ids' := by
  induction ids generalizing nextId with
  | nil => rfl
  | cons id rest ih =>
      simp only [List.cons_append, monitor]
      split
      · rfl
      · exact ih _

theorem monitor_range (n : Nat) :
    monitor 0 ((List.range n).map (BitVec.ofNat 64)) = some (BitVec.ofNat 64 n) := by
  induction n with
  | zero => rfl
  | succ n ih =>
      rw [List.range_succ, List.map_append, monitor_append, ih]
      simp [monitor, BitVec.ofNat_add]

theorem monitor_prefix_range {ids : List (BitVec 64)} {n : Nat}
    (h : ids <+: (List.range n).map (BitVec.ofNat 64)) :
    monitor 0 ids = some (BitVec.ofNat 64 ids.length) := by
  have hlen : ids.length ≤ n := by simpa using h.length_le
  rw [List.prefix_iff_eq_take, ← List.map_take, List.take_range, Nat.min_eq_left hlen] at h
  rw [h, monitor_range, List.length_map, List.length_range]

end DelayCall
