import DelayCall.Deadlock.Progress
import Mathlib.Algebra.BigOperators.Group.Finset

/-!
# The program can always finish its work

Outside the send-lock cycle the goroutines of the program can always run to an
idle state by their own moves, with the request source silent (`can_drain`).
Together with `idle_all_called`, every request read by then has been run.

The proof follows one schedule: run the pending calls of the delayers and
finish their expired timers first; then let `processor` go on with the request
it holds, and when it waits on a full channel let that channel's delayer take a
request; once `processor` waits for input, the delayers serve what is left and
expire.  `potential` counts the moves this schedule still has to make, and each
of them lowers it.  The schedule never enters the send-lock cycle: it routes
only while no delayer waits at line 100, and fires a timer only while
`processor` is not sending.
-/

namespace DelayCall

/-!
## The potential
-/

/-- The moves `processor` at `pc` still makes for the request it holds. -/
def ProcessorPc.weight : ProcessorPc -> Nat
  | .recv => 1
  | .lock _ => 8
  | .send _ _ => 7
  | .call _ => 2
  | .exited => 0

/-- The moves a delayer at `pc` over the buffer `buf` still makes, apart from
serving the requests in `buf`. -/
def DelayerPc.weight (pc : DelayerPc) (buf : List Request) : Nat :=
  match pc with
  | .recvFirst => 1
  | .call _ => 3
  | .select => 2
  | .lockTimer => if buf = [] then 1 else 3
  | .lockClosed | .exited | .returned => 0

theorem DelayerPc.weight_le (pc : DelayerPc) (buf buf' : List Request) :
    pc.weight buf' ≤ pc.weight buf + 2 := by
  cases pc <;> simp only [DelayerPc.weight] <;> (try split_ifs) <;> omega

def slotWeight (ds : List UserDelayer) (cs : List (Go.Chan Request)) (j : Nat) : Nat :=
  match ds[j]?, cs[j]? with
  | some d, some ch => d.pc.weight ch.buf + 3 * ch.buf.length
  | _, _ => 0

def slotSum (ds : List UserDelayer) (cs : List (Go.Chan Request)) : Nat :=
  ∑ j in Finset.range ds.length, slotWeight ds cs j

/-- The moves the schedule of `can_drain` still makes from `s`. -/
def potential (s : State) : Nat :=
  8 * s.externalCh.buf.length + s.processor.weight + slotSum s.delayers s.chans

section Slots

variable {ds : List UserDelayer} {cs : List (Go.Chan Request)} {j : Nat} {d : UserDelayer}
  {ch : Go.Chan Request}

theorem slotWeight_of_some (hd : ds[j]? = some d) (hch : cs[j]? = some ch) :
    slotWeight ds cs j = d.pc.weight ch.buf + 3 * ch.buf.length := by
  simp [slotWeight, hd, hch]

theorem slotSum_set (hd : ds[j]? = some d) (hch : cs[j]? = some ch) (d' : UserDelayer)
    (ch' : Go.Chan Request) :
    slotSum (ds.set j d') (cs.set j ch') + (d.pc.weight ch.buf + 3 * ch.buf.length) =
      slotSum ds cs + (d'.pc.weight ch'.buf + 3 * ch'.buf.length) := by
  have hj : j ∈ Finset.range ds.length :=
    Finset.mem_range.mpr (List.getElem?_eq_some_iff.mp hd).1
  have hrest : ∀ i ∈ (Finset.range ds.length).erase j,
      slotWeight (ds.set j d') (cs.set j ch') i = slotWeight ds cs i := by
    intro i hi
    simp only [slotWeight, getElem?_set_of_some hd, getElem?_set_of_some hch,
      if_neg (Finset.ne_of_mem_erase hi)]
  have hd' : (ds.set j d')[j]? = some d' := by simp [getElem?_set_of_some hd]
  have hch' : (cs.set j ch')[j]? = some ch' := by simp [getElem?_set_of_some hch]
  unfold slotSum
  rw [List.length_set, ← Finset.add_sum_erase _ _ hj, ← Finset.add_sum_erase _ _ hj,
    Finset.sum_congr rfl hrest, slotWeight_of_some hd hch, slotWeight_of_some hd' hch']
  ac_rfl

theorem slotSum_set_pc (hd : ds[j]? = some d) (hch : cs[j]? = some ch) (pc : DelayerPc) :
    slotSum (ds.set j { d with pc := pc }) cs + d.pc.weight ch.buf =
      slotSum ds cs + pc.weight ch.buf := by
  have h := slotSum_set hd hch { d with pc := pc } ch
  rw [set_of_getElem? hch] at h
  dsimp only at h
  omega

theorem slotSum_set_chan (hd : ds[j]? = some d) (hch : cs[j]? = some ch) (ch' : Go.Chan Request) :
    slotSum ds (cs.set j ch') + (d.pc.weight ch.buf + 3 * ch.buf.length) =
      slotSum ds cs + (d.pc.weight ch'.buf + 3 * ch'.buf.length) := by
  have h := slotSum_set hd hch d ch'
  rwa [set_of_getElem? hd] at h

theorem slotSum_append (hlen : cs.length = ds.length) (d : UserDelayer) (ch : Go.Chan Request) :
    slotSum (ds ++ [d]) (cs ++ [ch]) =
      slotSum ds cs + (d.pc.weight ch.buf + 3 * ch.buf.length) := by
  unfold slotSum
  rw [List.length_append, List.length_singleton, Finset.sum_range_succ]
  congr 1
  · refine Finset.sum_congr rfl fun i hi => ?_
    have hi := Finset.mem_range.mp hi
    simp only [slotWeight, List.getElem?_append_left hi, List.getElem?_append_left (hlen ▸ hi)]
  · rw [slotWeight_of_some (List.getElem?_concat_length ds d)
      (hlen ▸ List.getElem?_concat_length cs ch)]

end Slots

/-- A move of delayer `j` to a place other than line 100 that changes no other
channel, nor `processor` or `mu`, does not enter the send-lock cycle. -/
theorem SendLockCycle.of_set_pc {s s' : State} {j : Nat} {d : UserDelayer} {pc : DelayerPc}
    (h : SendLockCycle s') (hd : s.delayers[j]? = some d) (hpc : pc ≠ .lockTimer)
    (hdel : s'.delayers = s.delayers.set j { d with pc := pc })
    (hchans : forall i, i ≠ j -> s'.chans[i]? = s.chans[i]?)
    (hproc : s'.processor = s.processor) (hmu : s'.mu = s.mu) : SendLockCycle s := by
  obtain ⟨r, c, ch, d', hpc', hmu', hch, hopen, hlen, hd', hlock⟩ := h
  have hcj : c ≠ j := by
    rintro rfl
    rw [hdel, getElem?_set_of_some hd, if_pos rfl] at hd'
    cases hd'
    exact hpc hlock
  rw [hdel, List.getElem?_set_ne (Ne.symm hcj)] at hd'
  rw [hchans c hcj] at hch
  exact ⟨r, c, ch, d', hproc ▸ hpc', hmu ▸ hmu', hch, hopen, hlen, hd', hlock⟩

/-!
## One move of the schedule
-/

/-- A move of the program that lowers the potential and does not enter the
send-lock cycle. -/
def DrainStep (s : State) : Prop :=
  exists m s', m.internal = true ∧ step s m = some s' ∧ potential s' < potential s ∧
    ¬ SendLockCycle s'

variable {s : State}

/-- A delayer runs its pending call (line 74 or 89). -/
theorem drain_call (ho : Ownership s) (hn : ¬ SendLockCycle s) {j : Nat} {d : UserDelayer}
    {r : Request} (hd : s.delayers[j]? = some d) (hpc : d.pc = .call r) : DrainStep s := by
  obtain ⟨ch, hch, -⟩ := ho.slot_of_delayer hd
  have hpot := slotSum_set_pc hd hch .select
  refine ⟨.delayer j, (s.callService r).setPc j d .select, rfl,
    by simp [step, ho.no_panic, State.delayerStep, hd, hpc], ?_,
    fun h => hn (h.of_set_pc hd (by simp) rfl (fun _ _ => rfl) rfl rfl)⟩
  simp only [potential, State.setPc, State.callService, hpc, DelayerPc.weight] at hpot ⊢
  omega

/-- A delayer whose timer fired takes the free `mu` (lines 100-115). -/
theorem drain_lockTimer (ho : Ownership s) {j : Nat} {d : UserDelayer}
    (hd : s.delayers[j]? = some d) (hpc : d.pc = .lockTimer) (hmu : s.mu = false) :
    DrainStep s := by
  obtain ⟨ch, hch, hslot⟩ := ho.slot_of_delayer hd
  have hopen := (hslot.owning (by rw [hpc]; rfl)).1
  have hfree : forall t : State, t.mu = false -> ¬ SendLockCycle t :=
    fun t ht ⟨_, _, _, _, _, h, _⟩ => by rw [ht] at h; cases h
  by_cases hbuf : ch.buf = []
  · have hpot := slotSum_set hd hch { d with pc := .exited } { ch with closed := true }
    refine ⟨.delayer j, ((s.unregister j d).setChan j { ch with closed := true }).setPc j d .exited,
      rfl, ?_, ?_, hfree _ hmu⟩
    · simp [step, ho.no_panic, State.delayerStep, hd, hpc, hmu, hslot.ch_eq, hch, hbuf,
        State.retire, Go.Chan.close, hopen]
    · simp only [potential, State.setPc, State.setChan, State.unregister, hpc, hbuf,
        DelayerPc.weight, if_true] at hpot ⊢
      omega
  · have hlen : 0 < ch.buf.length := List.length_pos.mpr hbuf
    have hpot := slotSum_set_pc hd hch .select
    refine ⟨.delayer j, s.setPc j d .select, rfl, ?_, ?_, hfree _ hmu⟩
    · simp [step, ho.no_panic, State.delayerStep, hd, hpc, hmu, hslot.ch_eq, hch, hlen]
    · simp only [potential, State.setPc, hpc, hbuf, DelayerPc.weight, if_false] at hpot ⊢
      omega

/-- A delayer receives the front request of its channel (line 65 or 82). -/
theorem drain_receive (ho : Ownership s) (hn : ¬ SendLockCycle s) {j : Nat} {d : UserDelayer}
    {ch : Go.Chan Request} {r : Request} {rest : List Request} (hd : s.delayers[j]? = some d)
    (hpc : d.pc = .recvFirst ∨ d.pc = .select) (hch : s.chans[j]? = some ch)
    (hbuf : ch.buf = r :: rest) : DrainStep s := by
  have hslot := ho.slot j d ch hd hch
  have hpot := slotSum_set hd hch { d with pc := .call r } { ch with buf := rest }
  rw [hbuf] at hpot
  refine ⟨.delayer j, (s.setChan j { ch with buf := rest }).setPc j d (.call r), rfl, ?_, ?_,
    fun h => hn (h.of_set_pc hd (by simp) rfl
      (fun i hi => by simp [State.setPc, State.setChan, List.getElem?_set_ne (Ne.symm hi)])
      rfl rfl)⟩
  · rcases hpc with hpc | hpc <;>
      simp [step, ho.no_panic, State.delayerStep, hd, hpc, State.receive, hslot.ch_eq, hch,
        Go.Chan.recv, hbuf]
  · rcases hpc with hpc | hpc <;>
      simp only [potential, State.setPc, State.setChan, hpc, DelayerPc.weight,
        List.length_cons] at hpot ⊢ <;>
      omega

/-- The timer of a delayer with an empty channel fires (line 99). -/
theorem drain_fire (ho : Ownership s) {j : Nat} {d : UserDelayer} {ch : Go.Chan Request}
    (hd : s.delayers[j]? = some d) (hpc : d.pc = .select) (hch : s.chans[j]? = some ch)
    (hbuf : ch.buf = []) (hproc : forall r c, s.processor ≠ .send r c) : DrainStep s := by
  have hpot := slotSum_set_pc hd hch .lockTimer
  refine ⟨.timer j, s.setPc j d .lockTimer, rfl,
    by simp [step, ho.no_panic, State.timerStep, hd, hpc], ?_,
    fun ⟨r, c, _, _, hpc', _⟩ => hproc r c hpc'⟩
  simp only [potential, State.setPc, hpc, hbuf, DelayerPc.weight, if_true] at hpot ⊢
  omega

/-- `processor` sends at line 39; at a full channel, the channel's delayer
takes a request first. -/
theorem drain_send (ho : Ownership s) (hb : ChansBounded s) (hn : ¬ SendLockCycle s)
    {r : Request} {c : Nat} (hpc : s.processor = .send r c) : DrainStep s := by
  obtain ⟨d, ch, hd, hch, -, hown, hopen⟩ := ho.owner_of_entry (ho.send_entry r c hpc)
  by_cases hlt : ch.buf.length < delayerCap
  · have hpot := slotSum_set_chan hd hch { ch with buf := ch.buf ++ [r] }
    have hw := d.pc.weight_le ch.buf (ch.buf ++ [r])
    refine ⟨.processor,
      { s.setChan c { ch with buf := ch.buf ++ [r] } with
        processor := .recv
        mu := false }, rfl,
      by simp [step, ho.no_panic, State.processorStep, hpc, hch, Go.Chan.send, hopen, hlt], ?_,
      fun ⟨_, _, _, _, h, _⟩ => nomatch h⟩
    simp only [potential, State.setChan, hpc, ProcessorPc.weight, List.length_append,
      List.length_singleton] at hpot hw ⊢
    omega
  · have hfull : ch.buf.length = delayerCap := le_antisymm (hb c ch hch) (by omega)
    obtain ⟨r', rest, hbuf⟩ := List.exists_cons_of_ne_nil
      (List.ne_nil_of_length_pos (by rw [hfull]; decide))
    cases hdpc : d.pc with
    | recvFirst => exact drain_receive ho hn hd (.inl hdpc) hch hbuf
    | select => exact drain_receive ho hn hd (.inr hdpc) hch hbuf
    | call => exact drain_call ho hn hd hdpc
    | lockTimer =>
        exact absurd ⟨r, c, ch, d, hpc, ho.mu_iff.mpr ⟨r, c, hpc⟩, hch, hopen, hfull, hd,
          hdpc⟩ hn
    | lockClosed | exited | returned => rw [hdpc] at hown; cases hown

/-- `processor` goes on with the request it holds. -/
theorem drain_processor (ho : Ownership s) (hb : ChansBounded s) (hn : ¬ SendLockCycle s)
    (htimer : forall (j : Nat) (d : UserDelayer), s.delayers[j]? = some d ->
      d.pc = .lockTimer -> s.mu = true)
    (hbusy : ¬ (s.processor = .exited ∨
      s.processor = .recv ∧ s.externalCh.buf = [] ∧ s.externalCh.closed = false)) :
    DrainStep s := by
  have hmove : forall s', step s .processor = some s' -> potential s' < potential s ->
      (forall r c, s'.processor ≠ .send r c) -> DrainStep s := fun s' hstep hlt hproc =>
    ⟨.processor, s', rfl, hstep, hlt, fun ⟨r, c, _, _, h, _⟩ => hproc r c h⟩
  cases hpc : s.processor with
  | recv =>
      cases hext : s.externalCh.buf with
      | cons r rest =>
          refine hmove
            { s with
              externalCh := { s.externalCh with buf := rest }
              processor := .lock r
              received := s.received ++ [r] }
            (by simp [step, ho.no_panic, State.processorStep, hpc, Go.Chan.recv, hext]) ?_ (by simp)
          simp only [potential, hpc, hext, ProcessorPc.weight, List.length_cons]
          omega
      | nil =>
          cases hclosed : s.externalCh.closed
          · exact absurd (.inr ⟨hpc, hext, hclosed⟩) hbusy
          · refine hmove { s with processor := .exited }
              (by simp [step, ho.no_panic, State.processorStep, hpc, Go.Chan.recv, hext, hclosed])
              ?_ (by simp)
            simp only [potential, hpc, ProcessorPc.weight]
            omega
  | lock r =>
      have hmu := ho.mu_false (by simp [hpc])
      cases hr : s.activeDelayers r.uid with
      | some c =>
          refine ⟨.processor, { s with processor := .send r c, mu := true }, rfl,
            by simp [step, ho.no_panic, State.processorStep, hpc, hmu, hr], ?_, ?_⟩
          · simp only [potential, hpc, ProcessorPc.weight]
            omega
          · rintro ⟨_, _, _, d, _, _, _, _, _, hd, hlock⟩
            rw [htimer _ d hd hlock] at hmu
            cases hmu
      | none =>
          cases hnd : r.needsDelay
          · refine hmove { s with processor := .call r }
              (by simp [step, ho.no_panic, State.processorStep, hpc, hmu, hr, hnd]) ?_ (by simp)
            simp only [potential, hpc, ProcessorPc.weight]
            omega
          · have hspawn := slotSum_append ho.length_eq
              ⟨r.uid, s.chans.length, .recvFirst⟩ ⟨[r], false⟩
            refine hmove (s.spawn r)
              (by simp [step, ho.no_panic, State.processorStep, hpc, hmu, hr, hnd]) ?_
              (by simp [State.spawn])
            simp only [potential, State.spawn, hspawn, hpc, ProcessorPc.weight,
              DelayerPc.weight, List.length_singleton]
            omega
  | send r c => exact drain_send ho hb hn hpc
  | call r =>
      refine hmove { s.callService r with processor := .recv }
        (by simp [step, ho.no_panic, State.processorStep, hpc]) ?_ (by simp)
      simp only [potential, State.callService, hpc, ProcessorPc.weight]
      omega
  | exited => exact absurd (.inl hpc) hbusy

theorem drain_step (hs : Reachable s) (hn : ¬ SendLockCycle s) (hi : ¬ Idle s) :
    DrainStep s := by
  have ho := Ownership.of_reachable hs
  by_cases hcall : exists (j : Nat) (d : UserDelayer) (r : Request),
      s.delayers[j]? = some d ∧ d.pc = .call r
  · obtain ⟨j, d, r, hd, hpc⟩ := hcall
    exact drain_call ho hn hd hpc
  by_cases htimer : exists (j : Nat) (d : UserDelayer),
      s.delayers[j]? = some d ∧ d.pc = .lockTimer ∧ s.mu = false
  · obtain ⟨j, d, hd, hpc, hmu⟩ := htimer
    exact drain_lockTimer ho hd hpc hmu
  have htimer' : forall (j : Nat) (d : UserDelayer), s.delayers[j]? = some d ->
      d.pc = .lockTimer -> s.mu = true :=
    fun j d hd hpc => by simpa using fun hmu => htimer ⟨j, d, hd, hpc, hmu⟩
  by_cases hbusy : s.processor = .exited ∨
      s.processor = .recv ∧ s.externalCh.buf = [] ∧ s.externalCh.closed = false
  · have hproc : forall r c, s.processor ≠ .send r c := by
      rcases hbusy with h | ⟨h, -⟩ <;> simp [h]
    obtain ⟨d, hmem, hrun⟩ : ∃ d ∈ s.delayers, d.pc.running = true := by
      by_contra h
      exact hi ⟨hbusy, fun d hd => by simpa using fun hrun => h ⟨d, hd, hrun⟩⟩
    obtain ⟨j, hd⟩ := List.mem_iff_getElem?.mp hmem
    obtain ⟨ch, hch, -⟩ := ho.slot_of_delayer hd
    cases hpc : d.pc with
    | recvFirst =>
        obtain ⟨r, rest, hbuf⟩ :=
          List.exists_cons_of_ne_nil (FirstQueued.of_reachable hs j d ch hd hpc hch)
        exact drain_receive ho hn hd (.inl hpc) hch hbuf
    | select =>
        cases hbuf : ch.buf with
        | nil => exact drain_fire ho hd hpc hch hbuf hproc
        | cons r rest => exact drain_receive ho hn hd (.inr hpc) hch hbuf
    | call r => exact absurd ⟨j, d, r, hd, hpc⟩ hcall
    | lockTimer => exact absurd ⟨j, d, hd, hpc, ho.mu_false hproc⟩ htimer
    | lockClosed => exact absurd hpc (ho.pc_ne_lockClosed hd)
    | exited | returned => rw [hpc] at hrun; cases hrun
  · exact drain_processor ho (ChansBounded.of_reachable hs) hn htimer' hbusy

/-!
## Whole runs
-/

theorem drain_within (n : Nat) : forall s, potential s < n -> Reachable s ->
    ¬ SendLockCycle s -> exists ms t, ms.length ≤ potential s ∧
      (∀ m ∈ ms, m.internal = true) ∧ run s ms = some t ∧ Idle t := by
  induction n with
  | zero => intro s h; cases h
  | succ n ih =>
      intro s hlt hs hn
      by_cases hi : Idle s
      · exact ⟨[], s, Nat.zero_le _, by simp, rfl, hi⟩
      · obtain ⟨m, s', hm, hstep, hdec, hn'⟩ := drain_step hs hn hi
        obtain ⟨ms, t, hlen, hms, hrun, ht⟩ := ih s' (by omega) (hs.next m hstep) hn'
        refine ⟨m :: ms, t, by simp; omega, List.forall_mem_cons.mpr ⟨hm, hms⟩, ?_, ht⟩
        rw [run_cons, hstep]
        exact hrun

/-- From every reachable state outside the send-lock cycle, the goroutines of
the program can run, by at most `potential s` moves of their own and with no
request sent, to an idle state. -/
theorem can_drain (s : State) (hs : Reachable s) (hn : ¬ SendLockCycle s) :
    exists ms t, ms.length ≤ potential s ∧ (∀ m ∈ ms, m.internal = true) ∧
      run s ms = some t ∧ Idle t :=
  drain_within _ s (Nat.lt_succ_self _) hs hn

theorem jammed_can_drain : Reachable (jammed 2) ∧ ¬ SendLockCycle (jammed 2) ∧
    exists ms t, ms.length ≤ potential (jammed 2) ∧ (∀ m ∈ ms, m.internal = true) ∧
      run (jammed 2) ms = some t ∧ Idle t :=
  have hs := jammed_reachable 2 (by decide)
  have hn : ¬ SendLockCycle (jammed 2) := fun ⟨_, _, _, _, h, _⟩ => nomatch h
  ⟨hs, hn, can_drain _ hs hn⟩

end DelayCall
