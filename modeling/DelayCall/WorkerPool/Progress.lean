import DelayCall.WorkerPool.Safety

/-!
# The worker pool only stops when `main` returns or a worker panics

With one worker or more, some goroutine can move in every reachable state until
`main` returns or a goroutine panics.  While `main` adds jobs or waits for their
lines, the job it needs is in the queue, where a worker that is not busy takes
it, or a worker holds it and can send.  A send on a full `ResultChan` waits
only for the collector, which ranges over it until it is closed.  From
`pool.Stop()` on nothing `main` does waits for a worker, since the `WaitGroup`
is already at zero.

So a run that cannot go on has ended one of two ways (`final_state`), and the
program itself, with its three workers and ten jobs, can end both ways.
-/

namespace WorkerPool

open Go

theorem MainPc.queueClosed_of_beforeStop {pc : MainPc} (h : pc.beforeStop = true) :
    pc.queueClosed = false := by
  cases pc <;> first | rfl | cases h

theorem MainPc.resultClosed_of_queueClosed {pc : MainPc} (h : pc.queueClosed = false) :
    pc.resultClosed = false := by
  cases pc <;> first | rfl | cases h

theorem final_of_panicked {numJobs : Nat} {s : State} {p : Panic} (hp : s.panicked = some p) :
    Final numJobs s := fun _ => by simp [step, hp]

section

variable {n numJobs : Nat} {s : State}

theorem Inv.worker_moves (hi : Inv n numJobs s) (hq : s.jobQueue.closed = false) {w : Nat}
    {pc : WorkerPc} (hw : s.workers[w]? = some pc) (hpc : pc ≠ .stopped)
    (hsel : pc = .select -> s.jobQueue.buf ≠ []) : exists s', Transition numJobs s s' := by
  have hr : s.resultChan.closed = false :=
    hi.result_closed.trans (MainPc.resultClosed_of_queueClosed (hi.queue_closed.symm.trans hq))
  cases pc with
  | select =>
    obtain ⟨_, _, hb⟩ := List.exists_cons_of_ne_nil (hsel rfl)
    exact ⟨_, .take hw (Chan.recv_of_buf hb)⟩
  | sendResult job =>
    by_cases hlen : s.resultChan.buf.length < queueCap
    · exact ⟨_, .sendResult hw hr hlen⟩
    · have hne : s.resultChan.buf ≠ [] := fun h => hlen (by simp [h, queueCap])
      obtain ⟨_, _, hb⟩ := List.exists_cons_of_ne_nil hne
      cases hcol : s.collector
      · exact absurd (hi.collector hcol) (by simp [hr])
      · exact ⟨_, .collect hcol hb⟩
  | sendJob job =>
    rcases hi.jobs.hold w _ hw with ⟨-, hq'⟩ | ⟨c, rfl, -, -, hc⟩
    · exact absurd (hq.symm.trans hq') (by simp)
    · exact ⟨_, .sendJob hw rfl hc rfl (by simp)⟩
  | closeJob job =>
    obtain ⟨r, rfl, -, hc⟩ := hi.jobs.closeJob_chan hw
    exact ⟨_, .closeJob hw rfl hc rfl⟩
  | stopped => exact absurd rfl hpc

theorem Inv.queue_moves (hi : Inv n numJobs s) (hn : 0 < n) (hstop : s.main.beforeStop = true)
    (hb : s.jobQueue.buf ≠ []) : exists s', Transition numJobs s s' := by
  have h0 : 0 < s.workers.length := hi.jobs.length ▸ hn
  have hw := List.getElem?_eq_getElem h0
  exact hi.worker_moves (hi.queue_closed.trans (MainPc.queueClosed_of_beforeStop hstop)) hw
    (fun h => hi.running hstop (h ▸ List.getElem?_mem hw)) fun _ => hb

theorem Inv.progress (hi : Inv n numJobs s) (hn : 0 < n) (hm : s.main ≠ .exit) :
    exists s', Transition numJobs s s' := by
  have hmain := hi.main
  have hq := hi.queue_closed
  have hr := hi.result_closed
  cases hpc : s.main with
  | addJob i =>
    rw [hpc] at hq
    by_cases hi' : i ≤ numJobs
    · by_cases hcap : s.jobQueue.buf.length < queueCap
      · exact ⟨_, .addJob hpc hi' hq hcap⟩
      · exact hi.queue_moves hn (by rw [hpc]; rfl) fun h => hcap (by simp [h, queueCap])
    · exact ⟨_, .addDone hpc (by omega)⟩
  | await k =>
    rw [hpc] at hmain hq
    obtain ⟨-, rfl⟩ := hmain
    cases hc : s.jobResults[s.received.length]? with
    | none => exact ⟨_, .awaitDone hpc (List.getElem?_eq_none_iff.mp hc)⟩
    | some c =>
      cases hrc : c.recv with
      | some p =>
        obtain ⟨v, c'⟩ := p
        exact ⟨_, .await hpc hc hrc⟩
      | none =>
        rcases hi.jobs.waiting hc hrc with hle | ⟨w, hw | hw⟩
        · refine hi.queue_moves hn (by rw [hpc]; rfl) fun hb => ?_
          have hlt := (List.getElem?_eq_some_iff.mp hc).1
          simp only [taken, hb, List.length_nil, Nat.sub_zero] at hle
          omega
        · exact hi.worker_moves hq hw (by simp) (by simp)
        · exact hi.worker_moves hq hw (by simp) (by simp)
  | stop => exact ⟨_, .stop hpc⟩
  | wait => exact ⟨_, .wait hpc hi.wg⟩
  | closeJobQueue =>
    rw [hpc] at hq
    exact ⟨_, .closeJobQueue hpc hq⟩
  | closeResultChan =>
    rw [hpc] at hr
    exact ⟨_, .closeResultChan hpc hr⟩
  | finish => exact ⟨_, .finish hpc⟩
  | exit => exact absurd hpc hm

theorem Inv.final (hi : Inv n numJobs s) (hn : 0 < n) (hf : Final numJobs s) :
    s.received.length = numJobs ∧ (s.main = .exit ∧ s.panicked = none ∨ ResultChanPanic s) := by
  have hmain := hi.main
  rcases hi.panicked with hp | hpanic
  · have hexit : s.main = .exit := by
      by_contra hm
      obtain ⟨_, ht⟩ := hi.progress hn hm
      obtain ⟨m, hm'⟩ := ht.step_eq hp hm
      exact absurd (hf m) (by simp [hm'])
    rw [hexit] at hmain
    exact ⟨hmain.2, .inl ⟨hexit, hp⟩⟩
  · rw [hpanic.2.1] at hmain
    exact ⟨hmain.2, .inr hpanic⟩

end

/-- A run of the pool with one worker or more that cannot go on has ended one of
two ways, and `main` has received a line from every job either way: `main` has
returned, or a worker's send on the closed `ResultChan` has panicked while
`main` was at its last line. -/
theorem final_state (n numJobs : Nat) (hn : 0 < n) (moves : List Move) (s : State)
    (h : run numJobs (init n) moves = some s) (hf : Final numJobs s) :
    s.received.length = numJobs ∧ (s.main = .exit ∧ s.panicked = none ∨ ResultChanPanic s) :=
  ((Inv.init n numJobs).run moves h).final hn hf

/-- A run of the program's `main`, with three workers and ten jobs, in which
the first worker does every job, and after `Stop` takes the zero `Job` from the
closed queue and sends on the closed `ResultChan`. -/
def mainPanics : List Move :=
  List.replicate 11 Move.main ++
    (List.replicate 10 [Move.take 0, .work 0, .work 0, .work 0]).flatten ++
    List.replicate 15 Move.main ++ [Move.take 0, .work 0]

/-- A run of the program's `main` in which the workers take their `Quit` before
`Stop` closes the channels. -/
def mainReturns : List Move :=
  List.replicate 11 Move.main ++
    (List.replicate 10 [Move.take 0, .work 0, .work 0, .work 0]).flatten ++
    List.replicate 12 Move.main ++ [Move.quit 0, .quit 1, .quit 2] ++ List.replicate 4 Move.main

theorem main_ends_either_way :
    (exists s, run 10 (init 3) mainPanics = some s ∧ Final 10 s ∧ s.panicked = some .sendOnClosed ∧
      s.received.length = 10 ∧ (s.main = .exit ∧ s.panicked = none ∨ ResultChanPanic s)) ∧
    (exists s, run 10 (init 3) mainReturns = some s ∧ Final 10 s ∧ s.main = .exit ∧
      s.received.length = 10 ∧ (s.main = .exit ∧ s.panicked = none ∨ ResultChanPanic s)) :=
  ⟨⟨_, rfl, final_of_panicked rfl, rfl,
      final_state 3 10 (by decide) mainPanics _ rfl (final_of_panicked rfl)⟩,
    ⟨_, rfl, fun _ => rfl, rfl, final_state 3 10 (by decide) mainReturns _ rfl fun _ => rfl⟩⟩

/-- Once `Stop` has closed both channels, a worker still at its `select` takes
a job, or the zero `Job` from the closed queue, and its send on the closed
`ResultChan` panics. -/
theorem stopped_pool_panics (n numJobs : Nat) (moves : List Move) (s : State) (w : Nat)
    (h : run numJobs (init n) moves = some s) (hfin : s.main = .finish) (hp : s.panicked = none)
    (hw : s.workers[w]? = some .select) :
    exists s', run numJobs s [.take w, .work w] = some s' ∧ s'.panicked = some .sendOnClosed := by
  have hi := (Inv.init n numJobs).run moves h
  have hq : s.jobQueue.closed = true := by rw [hi.queue_closed, hfin]; rfl
  have hr : s.resultChan.closed = true := by rw [hi.result_closed, hfin]; rfl
  have hne : s.jobQueue.recv ≠ none := fun h => by simp [(Chan.recv_eq_none h).2] at hq
  obtain ⟨⟨o, q⟩, hrecv⟩ := Option.ne_none_iff_exists'.mp hne
  have hlt := (List.getElem?_eq_some_iff.mp hw).1
  refine ⟨{ s with
      workers := s.workers.set w (.sendResult (o.getD .zero))
      jobQueue := q
      panicked := some .sendOnClosed }, ?_, rfl⟩
  simp [run, step, hp, hfin, takeStep, hw, hrecv, workStep, hlt, Chan.send_closed hr]

theorem stopped_pool_panics_no_jobs :
    exists s, run 0 (init 1) (List.replicate 6 Move.main) = some s ∧ s.main = .finish ∧
      s.panicked = none ∧ s.workers[0]? = some .select ∧
      exists s', run 0 s [.take 0, .work 0] = some s' ∧ s'.panicked = some .sendOnClosed :=
  ⟨_, rfl, rfl, rfl, rfl, stopped_pool_panics 1 0 (List.replicate 6 Move.main) _ 0 rfl rfl rfl rfl⟩

end WorkerPool
