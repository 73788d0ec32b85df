import DelayCall.Deadlock.Jam
import DelayCall.Invariants.Order

/-!
# Progress and completion

The send-lock cycle is the only way the program gets stuck.  In a reachable
state where no goroutine can move, either `processor` and a delayer are in
that cycle, or the program is idle: `processor` has exited or waits on an empty
open `externalCh`, and every delayer has returned (`stuck_is_send_lock_or_idle`).

In an idle state every request `processor` has read has been run by
`callService`, exactly once, and on each key in the order it was read
(`idle_all_called`).
-/

namespace DelayCall

/-!
## The first request of a delayer
-/

/-- A delayer at line 65 finds a request in its channel: lines 46-50 send the
first one before it starts, and only it receives on its channel. -/
def FirstQueued (s : State) : Prop :=
  forall (j : Nat) (d : UserDelayer) (ch : Go.Chan Request), s.delayers[j]? = some d ->
    d.pc = .recvFirst -> s.chans[j]? = some ch -> ch.buf ≠ []

namespace FirstQueued

variable {s s' : State}

theorem set_pc (hq : FirstQueued s) {j : Nat} {d : UserDelayer} {pc : DelayerPc}
    (hd : s.delayers[j]? = some d) (hpc : pc ≠ .recvFirst)
    (hdel : s'.delayers = s.delayers.set j { d with pc := pc })
    (hchans : forall i, i ≠ j -> s'.chans[i]? = s.chans[i]?) : FirstQueued s' := by
  intro i e ch he hepc hch
  rw [hdel, getElem?_set_of_some hd] at he
  split at he
  · cases he
    exact absurd hepc hpc
  · rename_i hij
    rw [hchans i hij] at hch
    exact hq i e ch he hepc hch

theorem step (hq : FirstQueued s) (ho : Ownership s) (ht : Transition s s') :
    FirstQueued s' := by
  cases ht with
  | spawn =>
      intro i e ch he hepc hch
      simp only [State.spawn, List.getElem?_append, ← ho.length_eq] at he hch
      split at hch
      · rw [if_pos ‹_›] at he
        exact hq i e ch he hepc hch
      · rw [List.mem_singleton.mp (List.getElem?_mem hch)]
        simp
  | @send r c ch _ hch _ _ =>
      intro i e ch' he hepc hch'
      simp only [State.setChan, getElem?_set_of_some hch] at he hch'
      split at hch'
      · cases hch'
        simp
      · exact hq i e ch' he hepc hch'
  | @receive _ d _ _ _ hd _ _ _ =>
      obtain ⟨_, -, hslot⟩ := ho.slot_of_delayer hd
      refine hq.set_pc hd (by simp) rfl fun i hij => ?_
      simp [State.setPc, State.setChan, hslot.ch_eq, List.getElem?_set_ne (Ne.symm hij)]
  | receiveClosed hd hpc =>
      exact hq.set_pc hd (by rcases hpc with ⟨-, rfl⟩ | ⟨-, rfl⟩ <;> simp) rfl fun _ _ => rfl
  | callDelayer hd _ | fire hd _ | rearm hd _ _ _ _ =>
      exact hq.set_pc hd (by simp) rfl fun _ _ => rfl
  | @retire _ d _ _ hd hcase _ _ _ =>
      obtain ⟨_, -, hslot⟩ := ho.slot_of_delayer hd
      refine hq.set_pc hd (by rcases hcase with ⟨-, -, rfl⟩ | ⟨-, rfl⟩ <;> simp) rfl
        fun i hij => ?_
      simp [State.setPc, State.setChan, State.unregister, hslot.ch_eq,
        List.getElem?_set_ne (Ne.symm hij)]
  | _ => exact hq

theorem of_reachable (hs : Reachable s) : FirstQueued s := by
  induction hs with
  | start => intro j d ch hd; simp [State.init] at hd
  | next _ hs hstep ih => exact ih.step (Ownership.of_reachable hs) (step_transition hstep)

end FirstQueued

/-!
## Stuck states
-/

def Move.internal : Move -> Bool
  | .produce _ | .closeInput => false
  | .processor | .delayer _ | .timer _ => true

def Stuck (s : State) : Prop :=
  forall m, m.internal = true -> step s m = none

/-- Every goroutine has finished or waits for the request source. -/
structure Idle (s : State) : Prop where
  processor : s.processor = .exited ∨
    s.processor = .recv ∧ s.externalCh.buf = [] ∧ s.externalCh.closed = false
  delayers : ∀ d ∈ s.delayers, d.pc.running = false

variable {s : State}

/-- Where `processor` can be blocked: waiting for input, exited, or in the
send of line 39 on a full channel. -/
theorem processor_blocked (ho : Ownership s) (hb : ChansBounded s)
    (h : step s .processor = none) :
    (s.processor = .exited ∨
      s.processor = .recv ∧ s.externalCh.buf = [] ∧ s.externalCh.closed = false) ∨
    exists r c ch, s.processor = .send r c ∧ s.chans[c]? = some ch ∧ ch.closed = false ∧
      ch.buf.length = delayerCap := by
  simp only [step, ho.no_panic, Option.isSome_none, Bool.false_eq_true, if_false] at h
  cases hpc : s.processor with
  | recv =>
      cases hrecv : s.externalCh.recv with
      | none => exact .inl (.inr ⟨rfl, Go.Chan.recv_eq_none hrecv⟩)
      | some p => obtain ⟨_ | _, _⟩ := p <;> simp [State.processorStep, hpc, hrecv] at h
  | lock r =>
      have hmu := ho.mu_false (by simp [hpc])
      cases hr : s.activeDelayers r.uid <;>
        cases hn : r.needsDelay <;> simp [State.processorStep, hpc, hmu, hr, hn] at h
  | send r c =>
      obtain ⟨_, ch, -, hch, -, -, -⟩ := ho.owner_of_entry (ho.send_entry r c hpc)
      cases hsend : ch.send delayerCap r with
      | none =>
          obtain ⟨hopen, hfull⟩ := Go.Chan.send_eq_none hsend
          exact .inr ⟨r, c, ch, rfl, hch, hopen, le_antisymm (hb c ch hch) hfull⟩
      | some e => cases e <;> simp [State.processorStep, hpc, hch, hsend] at h
  | call r => simp [State.processorStep, hpc] at h
  | exited => exact .inl (.inl rfl)

/-- A running delayer that can move neither itself nor by its timer waits for
`mu` at line 100. -/
theorem delayer_blocked (ho : Ownership s) (hq : FirstQueued s) {j : Nat} {d : UserDelayer}
    (hd : s.delayers[j]? = some d) (hstep : step s (.delayer j) = none)
    (htimer : step s (.timer j) = none) :
    d.pc.running = false ∨ d.pc = .lockTimer ∧ s.mu = true := by
  obtain ⟨ch, hch, hslot⟩ := ho.slot_of_delayer hd
  simp only [step, ho.no_panic, Option.isSome_none, Bool.false_eq_true, if_false,
    State.delayerStep, State.timerStep, hd] at hstep htimer
  cases hpc : d.pc with
  | recvFirst =>
      cases hrecv : ch.recv with
      | none => exact absurd (Go.Chan.recv_eq_none hrecv).1 (hq j d ch hd hpc hch)
      | some p =>
          obtain ⟨_ | _, _⟩ := p <;>
            simp [hpc, State.receive, hslot.ch_eq, hch, hrecv] at hstep
  | lockClosed => exact absurd hpc (ho.pc_ne_lockClosed hd)
  | call => simp [hpc] at hstep
  | select => simp [hpc] at htimer
  | lockTimer =>
      cases hmu : s.mu
      · cases hclose : ch.close <;>
          by_cases hbuf : 0 < ch.buf.length <;>
          simp [hpc, hmu, hslot.ch_eq, hch, hbuf, State.retire, hclose] at hstep
      · exact .inr ⟨rfl, rfl⟩
  | exited | returned => exact .inl rfl

/-- A reachable state in which no goroutine can move is the send-lock cycle,
or every goroutine has finished or waits for input. -/
theorem stuck_is_send_lock_or_idle (s : State) (hs : Reachable s) (h : Stuck s) :
    SendLockCycle s ∨ Idle s := by
  have ho := Ownership.of_reachable hs
  have hdel : forall (j : Nat) (d : UserDelayer), s.delayers[j]? = some d ->
      d.pc.running = false ∨ d.pc = .lockTimer ∧ s.mu = true := fun j _ hd =>
    delayer_blocked ho (FirstQueued.of_reachable hs) hd (h (.delayer j) rfl) (h (.timer j) rfl)
  rcases processor_blocked ho (ChansBounded.of_reachable hs) (h .processor rfl) with
    hidle | ⟨r, c, ch, hpc, hch, hopen, hfull⟩
  · have hmu := ho.mu_false (by rcases hidle with h | ⟨h, -⟩ <;> simp [h])
    refine .inr ⟨hidle, fun d hmem => ?_⟩
    obtain ⟨j, hd⟩ := List.mem_iff_getElem?.mp hmem
    rcases hdel j d hd with hrun | ⟨-, hmu'⟩
    · exact hrun
    · rw [hmu] at hmu'
      cases hmu'
  · obtain ⟨d, ch', hd, hch', -, hown, -⟩ := ho.owner_of_entry (ho.send_entry r c hpc)
    rw [hch] at hch'
    cases hch'
    rcases hdel c d hd with hrun | ⟨hlock, hmu⟩
    · rw [(ho.running_iff hd).mpr hown] at hrun
      cases hrun
    · exact .inl ⟨r, c, ch, d, hpc, hmu, hch, hopen, hfull, hd, hlock⟩

theorem jamState_stuck : Stuck jamState := by
  intro m hm
  cases m with
  | produce | closeInput => cases hm
  | processor => simp [step, jamState, jammed, State.processorStep, Go.Chan.send]
  | delayer j => rcases j with _ | j <;> simp [step, jamState, jammed, State.delayerStep]
  | timer j => rcases j with _ | j <;> simp [step, jamState, jammed, State.timerStep]

theorem jamState_stuck_is_send_lock_or_idle :
    Reachable jamState ∧ Stuck jamState ∧ (SendLockCycle jamState ∨ Idle jamState) :=
  ⟨jamState_reachable, jamState_stuck,
    stuck_is_send_lock_or_idle jamState jamState_reachable jamState_stuck⟩

/-!
## Completion
-/

theorem DelayerPc.hand_of_not_running {pc : DelayerPc} (h : pc.running = false) :
    pc.hand = [] := by
  cases pc <;> simp_all [DelayerPc.running, DelayerPc.hand]

namespace Idle

theorem processor_hand (hi : Idle s) : s.processor.hand = [] := by
  rcases hi.processor with h | ⟨h, -⟩ <;> rw [h] <;> rfl

theorem buf_nil (hi : Idle s) (ho : Ownership s) {c : Nat} {ch : Go.Chan Request}
    (hch : s.chans[c]? = some ch) : ch.buf = [] := by
  have hc : c < s.delayers.length := ho.length_eq ▸ (List.getElem?_eq_some_iff.mp hch).1
  have hd := List.getElem?_eq_getElem hc
  rcases (ho.slot c _ ch hd hch).state with ⟨-, hbuf, -⟩ | ⟨hown, -⟩
  · exact hbuf
  · have hrun := hi.delayers _ (List.getElem?_mem hd)
    rw [(ho.running_iff hd).mpr hown] at hrun
    cases hrun

theorem inFlight_nil (hi : Idle s) (ho : Ownership s) : inFlight s = [] := by
  simp only [inFlight, hi.processor_hand, List.nil_append, List.append_eq_nil,
    List.flatten_eq_nil_iff, List.mem_map]
  constructor
  · rintro _ ⟨ch, hmem, rfl⟩
    obtain ⟨c, hch⟩ := List.mem_iff_getElem?.mp hmem
    exact hi.buf_nil ho hch
  · rintro _ ⟨d, hmem, rfl⟩
    exact DelayerPc.hand_of_not_running (hi.delayers d hmem)

theorem ownedOn_nil (hi : Idle s) (ho : Ownership s) (K : String) : ownedOn s K = [] := by
  cases h : s.activeDelayers K with
  | none => simp [ownedOn, h]
  | some c =>
      obtain ⟨d, -, hd, -, -, hown, -⟩ := ho.owner_of_entry h
      have hrun := hi.delayers d (List.getElem?_mem hd)
      rw [(ho.running_iff hd).mpr hown] at hrun
      cases hrun

end Idle

/-- In an idle state every request `processor` has read has been run by
`callService`: exactly once, and on each key in the order it was read. -/
theorem idle_all_called (s : State) (hs : Reachable s) (hi : Idle s) :
    s.received.Perm s.calls ∧ forall K, keyed s.calls K = keyed s.received K := by
  have ho := Ownership.of_reachable hs
  refine ⟨?_, fun K => ?_⟩
  · simpa [Conserved, hi.inFlight_nil ho] using Conserved.of_reachable hs
  · rw [InOrder.of_reachable hs K, hi.ownedOn_nil ho, hi.processor_hand]
    simp

theorem sampleState_idle : Idle sampleState :=
  ⟨.inr ⟨rfl, rfl, rfl⟩, by decide⟩

theorem sampleState_all_called : Reachable sampleState ∧ Idle sampleState ∧
    (sampleState.received.Perm sampleState.calls ∧
      forall K, keyed sampleState.calls K = keyed sampleState.received K) :=
  ⟨sampleState_reachable, sampleState_idle,
    idle_all_called sampleState sampleState_reachable sampleState_idle⟩

end DelayCall
