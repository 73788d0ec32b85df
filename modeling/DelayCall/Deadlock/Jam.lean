import DelayCall.Deadlock.WaitsFor

/-!
# A run that jams the dispatcher

One delayed request of `user1` spawns its delayer, which serves it and waits
in its select.  While it waits, `processor` routes `delayerCap` more requests
of `user1` into its channel, four moves each (`run_jammed_succ`).  With the
channel full, `processor` takes `mu` for one more request, and the delayer's
timer fires: the delayer now needs `mu` to receive again, and `processor`
needs a receive to release `mu`.
-/

namespace DelayCall

/-- The request the jamming run sends every time. -/
def jamRequest : Request := ⟨"user1", "task000", true, 0⟩

/-- `n` requests wait in the channel of the delayer of `user1`, which idles in
its select; `processor` waits for the next request. -/
def jammed (n : Nat) : State where
  externalCh := Go.Chan.empty
  processor := .recv
  mu := false
  activeDelayers := Function.update (fun _ => none) "user1" (some 0)
  chans := [⟨List.replicate n jamRequest, false⟩]
  delayers := [⟨"user1", 0, .select⟩]
  calls := [jamRequest]
  received := List.replicate (n + 1) jamRequest
  tableLog := [.insert "user1" 0]
  panic := none

theorem run_init_jammed :
    run State.init [.produce jamRequest, .processor, .processor, .delayer 0, .delayer 0] =
      some (jammed 0) := rfl

/-- Send one request and let `processor` read, route and enqueue it. -/
def jamMoves : List Move := [.produce jamRequest, .processor, .processor, .processor]

theorem run_jammed_succ (n : Nat) (hn : n < delayerCap) :
    run (jammed n) jamMoves = some (jammed (n + 1)) := by
  simp only [jammed, Go.Chan.empty, jamRequest, BitVec.ofNat_eq_ofNat, List.replicate_succ',
    jamMoves, run_cons, step, Option.isSome_none, Bool.false_eq_true, ↓reduceIte, Go.Chan.send,
    List.length_nil, externalCap, Nat.zero_lt_succ, List.nil_append, State.processorStep,
    Go.Chan.recv, State.setChan, run_nil, Option.bind_some, Option.some_bind, List.append_assoc,
    List.singleton_append, Function.update_same, List.length_singleton, Nat.lt_add_one,
    List.getElem?_eq_getElem, List.getElem_cons_zero, List.length_replicate, hn,
    List.set_cons_zero]

theorem jammed_reachable (n : Nat) (hn : n ≤ delayerCap) : Reachable (jammed n) := by
  induction n with
  | zero => exact Reachable.start.run run_init_jammed
  | succ n ih => exact (ih (by omega)).run (run_jammed_succ n (by omega))

/-- `processor` holds `mu` in the send of one more request into the full
channel, and the delayer's timer has fired. -/
def jamState : State :=
  { jammed delayerCap with
    processor := .send jamRequest 0
    mu := true
    delayers := [⟨"user1", 0, .lockTimer⟩]
    received := List.replicate (delayerCap + 2) jamRequest }

theorem run_jammed_full :
    run (jammed delayerCap) [.produce jamRequest, .processor, .processor, .timer 0] =
      some jamState := by
  simp only [jammed, Go.Chan.empty, jamRequest, BitVec.ofNat_eq_ofNat, List.replicate_succ',
    run_cons, step, Option.isSome_none, Bool.false_eq_true, ↓reduceIte, Go.Chan.send,
    List.length_nil, externalCap, Nat.zero_lt_succ, List.nil_append, State.processorStep,
    Go.Chan.recv, State.timerStep, State.setPc, run_nil, Option.bind_some, Option.some_bind,
    List.append_assoc, List.singleton_append, Function.update_same, List.length_singleton,
    Nat.lt_add_one, List.getElem?_eq_getElem, List.getElem_cons_zero, List.set_cons_zero,
    jamState]

theorem jamState_reachable : Reachable jamState :=
  (jammed_reachable delayerCap le_rfl).run run_jammed_full

theorem jamState_sendLockCycle : SendLockCycle jamState :=
  ⟨jamRequest, 0, ⟨List.replicate delayerCap jamRequest, false⟩, ⟨"user1", 0, .lockTimer⟩,
    rfl, rfl, rfl, rfl, List.length_replicate _ _, rfl, rfl⟩

theorem jamState_deadlock : Reachable jamState ∧ SendLockCycle jamState ∧
    Relation.TransGen (WaitsFor jamState) .processor .processor :=
  ⟨jamState_reachable, jamState_sendLockCycle,
    jamState_sendLockCycle.cycle (Ownership.of_reachable jamState_reachable)⟩

end DelayCall
