import DelayCall.Invariants.TableLog
import Mathlib.Logic.Relation

/-!
# Who waits for whom

`processor` holds `mu` across its send at line 39, and a delayer whose timer
fired takes `mu` at line 100 before it may receive again.  `WaitsFor` is the
waits-for relation between `processor` and the delayers, built from every
operation of theirs that can block.  In a reachable state it has a cycle
exactly when `processor` is blocked sending into a full channel while that
channel's own delayer is blocked at line 100 (`cycle_iff_sendLockCycle`), and
once that happens no step ever moves `processor` again.
-/

namespace DelayCall

/-- A goroutine of the waits-for relation. -/
inductive Party where
  | processor
  | delayer (j : Nat)
  deriving DecidableEq, Repr

/-- `WaitsFor s p q`: in `s`, `p` is blocked and only a step of `q` can
unblock it.  `mu.Lock()` (lines 34, 67, 100) blocks while `mu` is held and
waits for its holder, `processor` (a delayer holds `mu` only within one
step); `ch <- req` (line 39) blocks on a full channel and waits for the
delayer that receives on it; `<-ch` (line 65) blocks on an empty open channel
and waits for `processor`, its only sender.  The select of line 81 does not
block, as its timer may fire. -/
def WaitsFor (s : State) : Party -> Party -> Prop
  | .processor, .processor => (exists r, s.processor = .lock r) ∧ s.mu = true
  | .processor, .delayer j => exists r c ch d, s.processor = .send r c ∧
      s.chans[c]? = some ch ∧ ch.closed = false ∧ delayerCap ≤ ch.buf.length ∧
      s.delayers[j]? = some d ∧ d.ch = c
  | .delayer j, .processor => exists d, s.delayers[j]? = some d ∧
      ((d.pc = .lockClosed ∨ d.pc = .lockTimer) ∧ s.mu = true ∨
        d.pc = .recvFirst ∧ exists ch, s.chans[d.ch]? = some ch ∧ ch.buf = [] ∧
          ch.closed = false)
  | .delayer _, .delayer _ => False

/-- `processor` is blocked in `ch <- req` at line 39 holding `mu`, on a channel
that holds `delayerCap` requests, while the delayer of that channel is blocked
in `mu.Lock()` at line 100. -/
def SendLockCycle (s : State) : Prop :=
  exists r c ch d, s.processor = .send r c ∧ s.mu = true ∧ s.chans[c]? = some ch ∧
    ch.closed = false ∧ ch.buf.length = delayerCap ∧ s.delayers[c]? = some d ∧
    d.pc = .lockTimer

/-!
## Channels never exceed their capacity
-/

def ChansBounded (s : State) : Prop :=
  forall (c : Nat) (ch : Go.Chan Request), s.chans[c]? = some ch -> ch.buf.length ≤ delayerCap

namespace ChansBounded

variable {s s' : State}

theorem set (hb : ChansBounded s) (j : Nat) (ch' : Go.Chan Request)
    (h : ch'.buf.length ≤ delayerCap) :
    forall (c : Nat) (ch : Go.Chan Request), (s.chans.set j ch')[c]? = some ch ->
      ch.buf.length ≤ delayerCap := by
  intro c ch hc
  rw [List.getElem?_set] at hc
  split at hc
  · split at hc
    · cases hc
      exact h
    · cases hc
  · exact hb c ch hc

theorem step (hb : ChansBounded s) (ht : Transition s s') : ChansBounded s' := by
  cases ht with
  | spawn =>
      refine fun c ch hc => ?_
      simp only [State.spawn, List.getElem?_append] at hc
      split at hc
      · exact hb c ch hc
      · rw [List.mem_singleton.mp (List.getElem?_mem hc)]
        simp [delayerCap]
  | @send r c ch _ hch _ hlen =>
      exact hb.set c { ch with buf := ch.buf ++ [r] } (by simpa using hlen)
  | @receive _ d ch r rest _ _ hch hbuf =>
      refine hb.set d.ch { ch with buf := rest } (le_trans ?_ (hb _ ch hch))
      simp [hbuf]
  | @retire _ d ch _ _ _ _ hch _ =>
      exact hb.set d.ch { ch with closed := true } (hb _ ch hch)
  | _ => exact hb

theorem of_reachable (hs : Reachable s) : ChansBounded s := by
  induction hs with
  | start => exact fun c ch hc => by simp [State.init] at hc
  | next _ _ hstep ih => exact ih.step (step_transition hstep)

end ChansBounded

/-!
## The only cycle
-/

namespace WaitsFor

variable {s : State}

theorem processor_target (ho : Ownership s) {q : Party} (h : WaitsFor s .processor q) :
    exists j, q = .delayer j := by
  cases q with
  | processor =>
      obtain ⟨⟨r, hpc⟩, hmu⟩ := h
      obtain ⟨r', c, hsend⟩ := ho.mu_iff.mp hmu
      rw [hpc] at hsend
      cases hsend
  | delayer j => exact ⟨j, rfl⟩

theorem delayer_target {j : Nat} {q : Party} (h : WaitsFor s (.delayer j) q) :
    q = .processor := by
  cases q with
  | processor => rfl
  | delayer _ => exact h.elim

theorem sendLockCycle (ho : Ownership s) (hb : ChansBounded s) {j : Nat} {q : Party}
    (h1 : WaitsFor s .processor (.delayer j)) (h2 : WaitsFor s (.delayer j) q) :
    SendLockCycle s := by
  obtain ⟨r, c, ch, d, hpc, hch, hopen, hfull, hd, hdc⟩ := h1
  obtain rfl := h2.delayer_target
  obtain ⟨d', hd', h2⟩ := h2
  rw [hd] at hd'
  cases hd'
  obtain ⟨_, -, hslot⟩ := ho.slot_of_delayer hd
  rw [hslot.ch_eq] at hdc
  subst hdc
  have hmu : s.mu = true := ho.mu_iff.mpr ⟨r, j, hpc⟩
  rcases h2 with ⟨hlock | hlock, -⟩ | ⟨-, ch', hch', hnil, -⟩
  · exact absurd hlock (ho.pc_ne_lockClosed hd)
  · exact ⟨r, j, ch, d, hpc, hmu, hch, hopen, le_antisymm (hb j ch hch) hfull, hd, hlock⟩
  · rw [hslot.ch_eq, hch] at hch'
    cases hch'
    simp [hnil, delayerCap] at hfull

/-- Without the send-lock cycle, every path ends at a delayer that waits for
nobody, or runs from a delayer to `processor`. -/
theorem path_end (ho : Ownership s) (hb : ChansBounded s) (hn : ¬ SendLockCycle s)
    {a b : Party} (h : Relation.TransGen (WaitsFor s) a b) :
    (exists j, b = .delayer j ∧ forall q, ¬ WaitsFor s b q) ∨
      (b = .processor ∧ exists j, a = .delayer j) := by
  induction h with
  | single hab =>
      rename_i b
      cases a with
      | processor =>
          obtain ⟨j, rfl⟩ := processor_target ho hab
          exact .inl ⟨j, rfl, fun q hq => hn (sendLockCycle ho hb hab hq)⟩
      | delayer j => exact .inr ⟨hab.delayer_target, j, rfl⟩
  | tail _ hbc ih =>
      rcases ih with ⟨j, rfl, hsink⟩ | ⟨rfl, -⟩
      · exact (hsink _ hbc).elim
      · obtain ⟨j', rfl⟩ := processor_target ho hbc
        exact .inl ⟨j', rfl, fun q hq => hn (sendLockCycle ho hb hbc hq)⟩

end WaitsFor

theorem SendLockCycle.cycle {s : State} (ho : Ownership s) (h : SendLockCycle s) :
    Relation.TransGen (WaitsFor s) .processor .processor := by
  obtain ⟨r, c, ch, d, hpc, hmu, hch, hopen, hlen, hd, hlock⟩ := h
  obtain ⟨_, -, hslot⟩ := ho.slot_of_delayer hd
  have hsend : WaitsFor s .processor (.delayer c) :=
    ⟨r, c, ch, d, hpc, hch, hopen, hlen.ge, hd, hslot.ch_eq⟩
  exact .head hsend (.single ⟨d, hd, .inl ⟨.inr hlock, hmu⟩⟩)

/-- In the send-lock cycle every transition keeps the cycle and leaves
`processor` where it is: only the request source and the delayers of other
keys move, and none of them touches `mu`. -/
theorem SendLockCycle.step {s s' : State} (ho : Ownership s) (h : SendLockCycle s)
    (ht : Transition s s') : SendLockCycle s' ∧ s'.processor = s.processor := by
  obtain ⟨r, c, ch, d, hpc, hmu, hch, hopen, hlen, hd, hlock⟩ := h
  have hother : forall {j d'}, s.delayers[j]? = some d' -> d'.pc ≠ .lockTimer -> j ≠ c := by
    rintro j d' hd' hpc' rfl
    rw [hd] at hd'
    cases hd'
    exact hpc' hlock
  have hkeep : forall {s' : State} {j : Nat} {d' : UserDelayer}, s.delayers[j]? = some d' -> j ≠ c ->
      (s'.chans = s.chans ∨ exists ch', s'.chans = s.chans.set j ch') ->
      (exists pc, s'.delayers = s.delayers.set j { d' with pc := pc }) ->
      s'.processor = s.processor -> s'.mu = s.mu -> SendLockCycle s' ∧ s'.processor = s.processor := by
    intro s' j d' _ hjc hcs hds hproc hmu'
    obtain ⟨pc, hds⟩ := hds
    refine ⟨⟨r, c, ch, d, hproc ▸ hpc, hmu' ▸ hmu, ?_, hopen, hlen, ?_, hlock⟩, hproc⟩
    · rcases hcs with hcs | ⟨ch', hcs⟩ <;> rw [hcs]
      · exact hch
      · rw [List.getElem?_set_ne hjc]; exact hch
    · rw [hds, List.getElem?_set_ne hjc]; exact hd
  cases ht with
  | produce | closeInput =>
      exact ⟨⟨r, c, ch, d, hpc, hmu, hch, hopen, hlen, hd, hlock⟩, rfl⟩
  | recv hpc' | finish hpc' | route hpc' | spawn hpc' | direct hpc' | callMain hpc' =>
      rw [hpc] at hpc'
      cases hpc'
  | send hpc' hch' _ hlen' =>
      rw [hpc] at hpc'
      cases hpc'
      rw [hch] at hch'
      cases hch'
      simp [hlen] at hlen'
  | sendClosed hpc' hch' hclosed =>
      rw [hpc] at hpc'
      cases hpc'
      rw [hch] at hch'
      cases hch'
      rw [hopen] at hclosed
      cases hclosed
  | @receive j d' ch' r' rest hd' hpc' hch' _ =>
      have hjc := hother hd' (by rcases hpc' with h | h <;> rw [h] <;> simp)
      obtain ⟨_, -, hslot⟩ := ho.slot_of_delayer hd'
      exact hkeep hd' hjc
        (.inr ⟨{ ch' with buf := rest }, by simp [State.setPc, State.setChan, hslot.ch_eq]⟩)
        ⟨_, rfl⟩ rfl rfl
  | @receiveClosed j d' _ _ hd' hpc' =>
      have hjc := hother hd' (by rcases hpc' with ⟨h, -⟩ | ⟨h, -⟩ <;> rw [h] <;> simp)
      exact hkeep hd' hjc (.inl rfl) ⟨_, rfl⟩ rfl rfl
  | @callDelayer j d' _ hd' hpc' =>
      exact hkeep hd' (hother hd' (by rw [hpc']; simp)) (.inl rfl) ⟨_, rfl⟩ rfl rfl
  | @fire j d' hd' hpc' =>
      exact hkeep hd' (hother hd' (by rw [hpc']; simp)) (.inl rfl) ⟨_, rfl⟩ rfl rfl
  | rearm _ _ hmu' | retire _ _ hmu' | retireClosed _ _ hmu' =>
      rw [hmu] at hmu'
      cases hmu'

theorem SendLockCycle.run {s t : State} (hs : Reachable s) (h : SendLockCycle s)
    {ms : List Move} (hrun : DelayCall.run s ms = some t) :
    SendLockCycle t ∧ t.processor = s.processor := by
  induction ms generalizing s with
  | nil =>
      cases hrun
      exact ⟨h, rfl⟩
  | cons m ms ih =>
      rw [run_cons] at hrun
      cases hstep : DelayCall.step s m with
      | none => rw [hstep] at hrun; cases hrun
      | some s' =>
          rw [hstep] at hrun
          have h' := h.step (Ownership.of_reachable hs) (step_transition hstep)
          have ht := ih (hs.next m hstep) h'.1 hrun
          exact ⟨ht.1, ht.2.trans h'.2⟩

theorem cycle_iff_sendLockCycle {s : State} (hs : Reachable s) :
    (exists p, Relation.TransGen (WaitsFor s) p p) ↔ SendLockCycle s := by
  have ho := Ownership.of_reachable hs
  refine ⟨fun ⟨p, h⟩ => ?_, fun h => ⟨_, h.cycle ho⟩⟩
  by_contra hn
  obtain ⟨q, hpq, -⟩ := Relation.TransGen.head'_iff.mp h
  rcases WaitsFor.path_end ho (ChansBounded.of_reachable hs) hn h with
    ⟨j, rfl, hsink⟩ | ⟨rfl, j, hj⟩
  · exact hsink q hpq
  · cases hj

/-- In a reachable state the waits-for relation has a cycle exactly in the
send-lock cycle, and once there no run moves `processor` again. -/
theorem waitsFor_cycle_is_send_lock (s : State) (hs : Reachable s) :
    ((exists p, Relation.TransGen (WaitsFor s) p p) ↔ SendLockCycle s) ∧
    (SendLockCycle s -> forall ms t, run s ms = some t ->
      SendLockCycle t ∧ t.processor = s.processor) :=
  ⟨cycle_iff_sendLockCycle hs, fun h _ _ hrun => h.run hs hrun⟩

theorem sampleState_cycle_is_send_lock : Reachable sampleState ∧
    ((((exists p, Relation.TransGen (WaitsFor sampleState) p p) ↔ SendLockCycle sampleState) ∧
    (SendLockCycle sampleState -> forall ms t, run sampleState ms = some t ->
      SendLockCycle t ∧ t.processor = sampleState.processor))) :=
  ⟨sampleState_reachable, waitsFor_cycle_is_send_lock sampleState sampleState_reachable⟩

end DelayCall
