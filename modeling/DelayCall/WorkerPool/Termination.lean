import DelayCall.WorkerPool.Progress

/-!
# Every run of the worker pool ends

`pending` counts the moves the goroutines can still make.  `main` makes a fixed
number of moves per job it adds, and each job in the queue costs its worker a
take, two sends and a close, and the collector a receive.  A worker at its
`select` can still take the zero `Job` from the closed queue and send it on
`ResultChan`, after which its send on the zero `Job`'s nil channel blocks for
good.  Every move lowers `pending`, so a run has at most
`7 * numJobs + 3 * n + 8` moves, and from every state some run reaches a state
where no goroutine can move.
-/

namespace WorkerPool

open Go

/-- What is left for a job in the queue: a take, two sends, a close, and the
collector's receive. -/
def Job.cost (job : Job) : Nat := if job.result.isSome then 5 else 0

/-- What is left for a worker at `pc`, its own moves and the collector's. -/
def WorkerPc.cost : WorkerPc -> Nat
  | .select => 3
  | .sendResult job => if job.result.isSome then 7 else 2
  | .sendJob job => if job.result.isSome then 5 else 0
  | .closeJob _ => 4
  | .stopped => 0

/-- What is left for `main`, having made `made` job channels, in a run that adds
`numJobs` jobs; the jobs it has yet to add are counted with it. -/
def MainPc.cost (numJobs made : Nat) : MainPc -> Nat
  | .addJob i => 7 * (numJobs + 1 - i) + made + 7
  | .await k => made - k + 6
  | .stop => 5
  | .wait => 4
  | .closeJobQueue => 3
  | .closeResultChan => 2
  | .finish => 1
  | .exit => 0

def workersCost : List WorkerPc -> Nat
  | [] => 0
  | pc :: pcs => pc.cost + workersCost pcs

def queueCost : List Job -> Nat
  | [] => 0
  | job :: jobs => job.cost + queueCost jobs

/-- The moves the goroutines can still make; none once one has panicked. -/
def pending (numJobs : Nat) (s : State) : Nat :=
  match s.panicked with
  | some _ => 0
  | none =>
    s.main.cost numJobs s.jobResults.length + workersCost s.workers + queueCost s.jobQueue.buf +
      (if s.collector then s.resultChan.buf.length + 1 else 0)

theorem workersCost_set : forall {pcs : List WorkerPc} {w : Nat} {p : WorkerPc} (q : WorkerPc),
    pcs[w]? = some p -> workersCost (pcs.set w q) + p.cost = workersCost pcs + q.cost
  | _ :: _, 0, _, _, h => by
    simp only [List.getElem?_cons_zero, Option.some.injEq] at h
    subst h
    simp only [List.set_cons_zero, workersCost]
    omega
  | _ :: _, _ + 1, _, q, h => by
    have := workersCost_set q (by simpa using h)
    simp only [List.set_cons_succ, workersCost]
    omega

theorem queueCost_append (jobs : List Job) (job : Job) :
    queueCost (jobs ++ [job]) = queueCost jobs + job.cost := by
  induction jobs with
  | nil => simp [queueCost]
  | cons _ _ ih => rw [List.cons_append, queueCost, queueCost, ih]; omega

theorem pending_init (n numJobs : Nat) : pending numJobs (init n) = 7 * numJobs + 3 * n + 8 := by
  have hw : workersCost (List.replicate n .select) = 3 * n := by
    induction n with
    | zero => rfl
    | succ n ih => simp only [List.replicate_succ, workersCost, WorkerPc.cost, ih]; omega
  simp [pending, init, MainPc.cost, hw, queueCost]
  omega

section

variable {numJobs : Nat} {s s' : State}

theorem Transition.pending_lt (h : Transition numJobs s s') (hp : s.panicked = none)
    (hm : s.main ≠ .exit) : pending numJobs s' < pending numJobs s := by
  have hpos : 0 < s.main.cost numJobs s.jobResults.length := by
    cases hpc : s.main <;> simp [MainPc.cost]
    exact hm hpc
  cases h with
  | addJob hpc hle =>
    simp [pending, hp, hpc, MainPc.cost, Job.cost, queueCost_append]
    omega
  | addDone hpc hlt =>
    simp [pending, hp, hpc, MainPc.cost]
    omega
  | await hpc hc =>
    have := (List.getElem?_eq_some_iff.mp hc).1
    simp [pending, hp, hpc, MainPc.cost]
    omega
  | awaitDone hpc hle =>
    simp [pending, hp, hpc, MainPc.cost]
  | stop hpc | wait hpc | closeJobQueue hpc | closeResultChan hpc | finish hpc =>
    simp [pending, hp, hpc, MainPc.cost]
  | @take _ job _ hw hr =>
    have hs := workersCost_set (.sendResult (job.getD .zero)) hw
    simp only [pending, hp]
    rcases Chan.recv_cases hr with ⟨v, rest, hb, rfl, rfl⟩ | ⟨hb, -, rfl, rfl⟩
    · simp only [hb, queueCost, Option.getD_some, WorkerPc.cost, Job.cost] at hs ⊢
      cases hv : v.result.isSome <;> simp [hv] at hs ⊢ <;> omega
    · simp [WorkerPc.cost, Job.zero] at hs ⊢
      omega
  | quit hw =>
    have hs := workersCost_set .stopped hw
    simp only [pending, hp, WorkerPc.cost] at hs ⊢
    omega
  | @sendResult _ job hw =>
    have hs := workersCost_set (.sendJob job) hw
    simp only [pending, hp, WorkerPc.cost, List.length_append, List.length_singleton] at hs ⊢
    split at hs <;> split <;> omega
  | @sendJob _ _ job _ hw hr =>
    have hs := workersCost_set (.closeJob job) hw
    simp only [pending, hp, WorkerPc.cost, List.length_set, hr, Option.isSome_some, if_true] at hs ⊢
    omega
  | closeJob hw =>
    have hs := workersCost_set .select hw
    simp only [pending, hp, WorkerPc.cost, List.length_set] at hs ⊢
    omega
  | collect hcol hb =>
    simp [pending, hp, hcol, hb]
  | collectorExit hcol =>
    simp [pending, hp, hcol]
  | addJobClosed | closeJobQueueClosed | closeResultChanClosed | sendResultClosed
    | sendJobClosed | closeJobClosed | closeJobNil =>
    simp only [pending, hp]
    omega

theorem run_pending (moves : List Move) (h : run numJobs s moves = some s') :
    moves.length + pending numJobs s' ≤ pending numJobs s := by
  induction moves generalizing s with
  | nil => simp [Option.some.inj h]
  | cons m moves ih =>
    rw [run_cons] at h
    obtain ⟨s₁, h₁, h⟩ := Option.bind_eq_some.mp h
    obtain ⟨hp, hm, ht⟩ := step_transition h₁
    have := ht.pending_lt hp hm
    have := ih h
    simp only [List.length_cons]
    omega

theorem exists_final_of_pending : forall (k : Nat) (s : State), pending numJobs s ≤ k ->
    exists moves s', run numJobs s moves = some s' ∧ Final numJobs s'
  | k, s, hk => by
    by_cases hf : Final numJobs s
    · exact ⟨[], s, rfl, hf⟩
    · obtain ⟨m, hm⟩ := not_forall.mp hf
      obtain ⟨s₁, h₁⟩ := Option.ne_none_iff_exists'.mp hm
      obtain ⟨hp, hm, ht⟩ := step_transition h₁
      have hlt := ht.pending_lt hp hm
      obtain ⟨moves, s', hrun, hfin⟩ := exists_final_of_pending (k - 1) s₁ (by omega)
      exact ⟨m :: moves, s', by rw [run_cons, h₁]; exact hrun, hfin⟩

end

/-- Every run of the pool has at most `7 * numJobs + 3 * n + 8` moves, and
goes on to a state where no goroutine can move; with one worker or more, that
state has `main` returned, or a worker's send on the closed `ResultChan`
panicked, after `main` has received a line from every job. -/
theorem run_ends (n numJobs : Nat) (moves : List Move) (s : State)
    (h : run numJobs (init n) moves = some s) :
    moves.length ≤ 7 * numJobs + 3 * n + 8 ∧
      exists more s', run numJobs s more = some s' ∧ Final numJobs s' ∧
        (0 < n -> s'.received.length = numJobs ∧
          (s'.main = .exit ∧ s'.panicked = none ∨ ResultChanPanic s')) := by
  have hlen := run_pending moves h
  rw [pending_init] at hlen
  obtain ⟨more, s', hrun, hf⟩ := exists_final_of_pending _ s le_rfl
  exact ⟨by omega, more, s', hrun, hf, fun hn =>
    ((Inv.init n numJobs).run moves h).run more hrun |>.final hn hf⟩

theorem run_ends_one_job :
    exists s, run 1 (init 1) [Move.main, .take 0, .work 0, .work 0, .work 0] = some s ∧
      [Move.main, .take 0, .work 0, .work 0, .work 0].length ≤ 7 * 1 + 3 * 1 + 8 ∧
      exists more s', run 1 s more = some s' ∧ Final 1 s' ∧
        (0 < 1 -> s'.received.length = 1 ∧
          (s'.main = .exit ∧ s'.panicked = none ∨ ResultChanPanic s')) :=
  ⟨_, rfl, run_ends 1 1 [Move.main, .take 0, .work 0, .work 0, .work 0] _ rfl⟩

end WorkerPool
