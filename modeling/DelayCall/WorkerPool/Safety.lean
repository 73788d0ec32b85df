import DelayCall.WorkerPool.Jobs

/-!
# What every run of the worker pool keeps

`Inv` is `Jobs` together with what `main`'s place says of the rest: how many
job channels it has made and how many lines it has received, which of the
two pool channels are closed, and that no `Stop` goroutine runs before
`pool.Stop()`.  It also records the counter of the pool's `WaitGroup`, which is
zero from `pool.Start()` on, so `p.wg.Wait()` never blocks.

Of the panics a step can raise, `Inv` leaves one: a worker sends on
`ResultChan` after `Stop` has closed it.  `main` is then back at its last
`fmt.Println`.
-/

namespace WorkerPool

open Go

/-- `main` has closed the job queue. -/
def MainPc.queueClosed : MainPc -> Bool
  | .closeResultChan | .finish | .exit => true
  | _ => false

/-- `main` has closed `ResultChan`. -/
def MainPc.resultClosed : MainPc -> Bool
  | .finish | .exit => true
  | _ => false

/-- `main` has not yet started the `Stop` goroutines. -/
def MainPc.beforeStop : MainPc -> Bool
  | .addJob _ | .await _ | .stop => true
  | _ => false

/-- What `main` at its place has made, `made` job channels, and received, for a
run that adds `numJobs` jobs. -/
def MainOk (numJobs made : Nat) (received : List String) : MainPc -> Prop
  | .addJob i => made + 1 = i ∧ i ≤ numJobs + 1 ∧ received = []
  | .await k => made = numJobs ∧ received.length = k
  | _ => made = numJobs ∧ received.length = numJobs

/-- A worker's send on the closed `ResultChan` has panicked while `main` is at
its last line; the worker is still at that send. -/
def ResultChanPanic (s : State) : Prop :=
  s.panicked = some .sendOnClosed ∧ s.main = .finish ∧ s.resultChan.closed = true ∧
    exists (w : Nat) (job : Job), s.workers[w]? = some (.sendResult job)

/-- What every reachable state of a run with `n` workers and `numJobs` jobs
satisfies. -/
structure Inv (n numJobs : Nat) (s : State) : Prop where
  jobs : Jobs n s.workers s.jobQueue s.jobResults s.received
  main : MainOk numJobs s.jobResults.length s.received s.main
  wg : s.wg = 0
  queue_closed : s.jobQueue.closed = s.main.queueClosed
  result_closed : s.resultChan.closed = s.main.resultClosed
  quit : s.main.beforeStop = true -> ∀ b ∈ s.quit, b = false
  running : s.main.beforeStop = true -> WorkerPc.stopped ∉ s.workers
  collector : s.collector = false -> s.resultChan.closed = true
  panicked : s.panicked = none ∨ ResultChanPanic s

/-- Each round of `WorkerPool.Start` adds one to the counter, and the deferred
`wg.Done()` of `Worker.Start` takes it off again. -/
theorem start_eq_zero (numWorkers : Nat) : start numWorkers = 0 := by
  suffices forall (l : List Nat) (wg : Int),
      l.foldl (fun wg _ => Worker.start (wg + 1)) wg = wg from this _ 0
  intro l
  induction l with
  | nil => exact fun _ => rfl
  | cons _ l ih => exact fun wg => by simp [Worker.start, ih]

theorem Inv.init (n numJobs : Nat) : Inv n numJobs (init n) where
  jobs := Jobs.init n
  main := ⟨rfl, by omega, rfl⟩
  wg := start_eq_zero n
  queue_closed := rfl
  result_closed := rfl
  quit _ _ h := List.eq_of_mem_replicate h
  running _ h := nomatch List.eq_of_mem_replicate h
  collector h := nomatch h
  panicked := .inl rfl

theorem not_stopped_set {workers : List WorkerPc} (h : WorkerPc.stopped ∉ workers) (w : Nat)
    {pc : WorkerPc} (hpc : pc ≠ .stopped) : WorkerPc.stopped ∉ workers.set w pc := fun hm =>
  (List.mem_or_eq_of_mem_set hm).elim h fun h => hpc h.symm

theorem MainPc.eq_finish {pc : MainPc} (h : pc.resultClosed = true) (hne : pc ≠ .exit) :
    pc = .finish := by
  cases pc <;> first | rfl | exact absurd rfl hne | cases h

section

variable {n numJobs : Nat} {s s' : State} {m : Move}

theorem Inv.step (hi : Inv n numJobs s) (h : step numJobs s m = some s') : Inv n numJobs s' := by
  obtain ⟨hp, hm, ht⟩ := step_transition h
  obtain ⟨main, workers, quit, collector, jobQueue, resultChan, jobResults, received, wg,
    panicked⟩ := s
  have hmain : MainOk numJobs jobResults.length received main := hi.main
  cases hp
  cases ht with
  | @addJob i hpc hle hq hcap =>
    cases hpc
    obtain ⟨hlen, -, rfl⟩ := hmain
    have hjob : (⟨(i : Nat), some jobResults.length⟩ : Job) = .nth jobResults.length := by
      simp [Job.nth, ← hlen]
    exact { hi with
      jobs := hjob ▸ hi.jobs.addJob, main := by dsimp only; exact ⟨by simp; omega, by omega, rfl⟩, panicked := .inl rfl }
  | addJobClosed hpc _ hq =>
    cases hpc
    exact absurd (hq.symm.trans hi.queue_closed) (by simp [MainPc.queueClosed])
  | addDone hpc hlt =>
    cases hpc
    obtain ⟨hlen, hle, rfl⟩ := hmain
    exact { hi with main := by dsimp only; exact ⟨by omega, rfl⟩, panicked := .inl rfl }
  | await hpc hc hr =>
    cases hpc
    obtain ⟨hlen, rfl⟩ := hmain
    obtain ⟨-, -, -, hjobs⟩ := hi.jobs.await hc hr
    exact { hi with
      jobs := hjobs, main := by dsimp only; exact ⟨by simp [hlen], by simp⟩, panicked := .inl rfl }
  | awaitDone hpc hle =>
    cases hpc
    obtain ⟨hlen, rfl⟩ := hmain
    have := hi.jobs.received_le
    dsimp only [taken] at this hle
    exact { hi with main := by dsimp only; exact ⟨hlen, by omega⟩, panicked := .inl rfl }
  | stop hpc =>
    cases hpc
    exact { hi with
      quit := fun h => (nomatch h), running := fun h => (nomatch h), panicked := .inl rfl }
  | wait hpc _ =>
    cases hpc
    exact { hi with panicked := .inl rfl }
  | closeJobQueue hpc _ =>
    cases hpc
    exact { hi with jobs := hi.jobs.closeQueue, queue_closed := rfl, panicked := .inl rfl }
  | closeJobQueueClosed hpc hq =>
    cases hpc
    exact absurd (hq.symm.trans hi.queue_closed) (by simp [MainPc.queueClosed])
  | closeResultChan hpc _ =>
    cases hpc
    exact { hi with result_closed := rfl, collector := fun _ => rfl, panicked := .inl rfl }
  | closeResultChanClosed hpc hq =>
    cases hpc
    exact absurd (hq.symm.trans hi.result_closed) (by simp [MainPc.resultClosed])
  | finish hpc =>
    cases hpc
    exact { hi with panicked := .inl rfl }
  | take hw hr =>
    exact { hi with
      jobs := hi.jobs.take hw hr
      queue_closed := (Chan.recv_closed_eq hr).trans hi.queue_closed
      running := fun h => not_stopped_set (hi.running h) _ (by simp)
      panicked := .inl rfl }
  | quit hw hq =>
    exact { hi with
      jobs := hi.jobs.set_worker hw (fun _ => Iff.rfl) trivial
      quit := fun h => nomatch hi.quit h _ (List.getElem?_mem hq)
      running := fun h => nomatch hi.quit h _ (List.getElem?_mem hq)
      panicked := .inl rfl }
  | sendResult hw _ _ =>
    exact { hi with
      jobs := hi.jobs.set_worker hw (fun _ => Iff.rfl) (hi.jobs.hold _ (.sendResult _) hw)
      running := fun h => not_stopped_set (hi.running h) _ (by simp)
      panicked := .inl rfl }
  | sendResultClosed hw hq =>
    exact { hi with
      panicked := .inr ⟨rfl, MainPc.eq_finish (hi.result_closed.symm.trans hq) hm, hq, _, _, hw⟩ }
  | sendJob hw hr hc _ _ =>
    exact { hi with
      jobs := hi.jobs.sendJob hw hr hc
      main := by rw [List.length_set]; exact hi.main
      running := fun h => not_stopped_set (hi.running h) _ (by simp)
      panicked := .inl rfl }
  | sendJobClosed hw hr hc hcl =>
    obtain ⟨-, -, -, hc'⟩ := hi.jobs.sendJob_chan hw hr
    cases hc.symm.trans hc'
    cases hcl
  | closeJob hw hr hc _ =>
    exact { hi with
      jobs := hi.jobs.closeJob hw hr hc
      main := by rw [List.length_set]; exact hi.main
      running := fun h => not_stopped_set (hi.running h) _ (by simp)
      panicked := .inl rfl }
  | closeJobClosed hw hr hc hcl =>
    obtain ⟨r', rfl, -, hc'⟩ := hi.jobs.closeJob_chan hw
    cases hr
    cases hc.symm.trans hc'
    cases hcl
  | closeJobNil hw hr =>
    obtain ⟨r', rfl, -⟩ := hi.jobs.closeJob_chan hw
    cases hr
  | collect _ _ =>
    exact { hi with panicked := .inl rfl }
  | collectorExit _ _ hcl =>
    exact { hi with collector := fun _ => hcl, panicked := .inl rfl }

theorem run_cons (m : Move) (moves : List Move) :
    run numJobs s (m :: moves) = (step numJobs s m).bind fun s₁ => run numJobs s₁ moves := rfl

theorem Inv.run (hi : Inv n numJobs s) (moves : List Move) (h : run numJobs s moves = some s') :
    Inv n numJobs s' := by
  induction moves generalizing s with
  | nil => exact Option.some.inj h ▸ hi
  | cons m moves ih =>
    rw [run_cons] at h
    obtain ⟨s₁, h₁, h⟩ := Option.bind_eq_some.mp h
    exact ih (hi.step h₁) h

end

/-- In every run of the pool the `WaitGroup` counter is zero; the one panic is a
send on the closed `ResultChan` while `main` is at its last line; and the
`k`-th line `main` has received is job `k + 1`'s, from one of the `n`
workers. -/
theorem run_safe (n numJobs : Nat) (moves : List Move) (s : State)
    (h : run numJobs (init n) moves = some s) :
    s.wg = 0 ∧ (s.panicked = none ∨ ResultChanPanic s) ∧
      ∀ k < s.received.length, ∃ w < n, s.received[k]? = some (result (.nth k) (w + 1)) :=
  have hi := (Inv.init n numJobs).run moves h
  ⟨hi.wg, hi.panicked, hi.jobs.answers⟩

theorem run_safe_one_job :
    exists s, run 1 (init 1) [Move.main, .take 0, .work 0, .work 0, .work 0, .main, .main] = some s ∧
      s.wg = 0 ∧ (s.panicked = none ∨ ResultChanPanic s) ∧
      ∀ k < s.received.length, ∃ w < (1 : Nat), s.received[k]? = some (result (.nth k) (w + 1)) :=
  ⟨_, rfl, run_safe 1 1 [Move.main, .take 0, .work 0, .work 0, .work 0, .main, .main] _ rfl⟩

end WorkerPool
