import DelayCall.Go.Chan

/-!
# The worker pool

`concurrency/workerpool/main.go`.  `NewWorkerPool(3)` makes a job queue and a
result channel, both of capacity 100, and three workers.  `Start` runs one
goroutine per worker, and `main` starts a collector that ranges over the
result channel.  `main` then adds ten jobs, each with its own result channel
of capacity 1, receives once from each of those, and calls `Stop`.

A worker's goroutine loops on a `select` over the job queue and its `Quit`
channel.  For a job it sends the line `Job i completed by worker w` to the
result channel, sends it to the job's own channel, and closes that.  `Stop`
starts, for each worker, a goroutine blocked on `w.Quit <- true`.  It then
waits on the pool's `WaitGroup` and closes the job queue and the result
channel.

The state holds the place of every goroutine and every channel.
`Job.Duration` only feeds `time.Sleep`, and the other printed lines only go to
stdout, so neither is modelled.  A job's `Result` channel is an index into
`jobResults`, and `none` stands for the nil channel of the zero `Job`.  The
program ends when `main` returns or any goroutine panics.
-/

namespace WorkerPool

open Go

/-- `Job`: its `ID`, and its `Result` channel. -/
structure Job where
  id : Int
  result : Option Nat
  deriving DecidableEq, Repr

/-- The zero `Job`, which a receive from the closed, empty job queue yields. -/
def Job.zero : Job := ⟨0, none⟩

/-- The line a worker with ID `worker` sends for `job`:
`fmt.Sprintf("Job %d completed by worker %d", job.ID, w.ID)`. -/
def result (job : Job) (worker : Int) : String :=
  "Job " ++ toString job.id ++ " completed by worker " ++ toString worker

/-- The capacity of `JobQueue` and of `ResultChan` (`NewWorkerPool`). -/
def queueCap : Nat := 100

/-- Where a worker's goroutine is. -/
inductive WorkerPc where
  /-- At the `select`. -/
  | select
  /-- At `resultChan <- result`. -/
  | sendResult (job : Job)
  /-- At `job.Result <- result`. -/
  | sendJob (job : Job)
  /-- At `close(job.Result)`. -/
  | closeJob (job : Job)
  /-- Returned from the `Quit` case. -/
  | stopped
  deriving DecidableEq, Repr

/-- Where `main` is. -/
inductive MainPc where
  /-- At the `i`-th round of the loop that adds jobs. -/
  | addJob (i : Nat)
  /-- At `result := <-resultChan` for the `k`-th job. -/
  | await (k : Nat)
  /-- At `pool.Stop()`, about to call `worker.Stop()` for each worker. -/
  | stop
  /-- At `p.wg.Wait()`. -/
  | wait
  | closeJobQueue
  | closeResultChan
  /-- Back in `main`, printing its last line. -/
  | finish
  /-- Returned: the program has ended. -/
  | exit
  deriving DecidableEq, Repr

/-- The goroutines and channels of the program after `pool.Start()`. -/
structure State where
  main : MainPc
  workers : List WorkerPc
  /-- `quit[w]`: a goroutine of `workers[w].Stop()` is blocked on `w.Quit <- true`. -/
  quit : List Bool
  /-- The collector is still in `for result := range pool.ResultChan`. -/
  collector : Bool
  jobQueue : Chan Job
  resultChan : Chan String
  /-- `jobResults`: the jobs' own channels, in the order `main` made them. -/
  jobResults : List (Chan String)
  /-- What `main` has received from `jobResults`. -/
  received : List String
  /-- The pool's `WaitGroup` counter. -/
  wg : Int
  panicked : Option Panic

/-! ## Starting the pool -/

/-- `Worker.Start`: it returns as soon as it has started the worker's
goroutine, and its deferred `wg.Done()` runs then. -/
def Worker.start (wg : Int) : Int := wg - 1

/-- `WorkerPool.Start`: `p.wg.Add(1)` and `worker.Start` for each worker. -/
def start (numWorkers : Nat) : Int :=
  (List.range numWorkers).foldl (fun wg _ => Worker.start (wg + 1)) 0

/-- The program right after `pool.Start()` and the collector's `go`. -/
def init (numWorkers : Nat) : State where
  main := .addJob 1
  workers := List.replicate numWorkers .select
  quit := List.replicate numWorkers false
  collector := true
  jobQueue := .empty
  resultChan := .empty
  jobResults := []
  received := []
  wg := start numWorkers
  panicked := none

/-! ## The goroutines' steps -/

/-- `main`'s next step, for a run that adds `numJobs` jobs.  Making a job's
channel and appending it to `jobResults` are local to `main`, so they are taken
together with the send to the job queue. -/
def mainStep (numJobs : Nat) (s : State) : Option State :=
  match s.main with
  | .addJob i =>
    if i ≤ numJobs then
      (s.jobQueue.send queueCap ⟨i, some s.jobResults.length⟩).map fun
        | .ok q =>
          { s with main := .addJob (i + 1), jobQueue := q, jobResults := s.jobResults ++ [.empty] }
        | .error p => { s with panicked := some p }
    else some { s with main := .await 0 }
  | .await k =>
    match s.jobResults[k]? with
    | some c =>
      c.recv.map fun (v, c) =>
        { s with main := .await (k + 1), jobResults := s.jobResults.set k c,
                 received := s.received ++ [v.getD ""] }
    | none => some { s with main := .stop }
  | .stop => some { s with main := .wait, quit := s.quit.map fun _ => true }
  | .wait => if s.wg = 0 then some { s with main := .closeJobQueue } else none
  | .closeJobQueue =>
    some (match s.jobQueue.close with
      | .ok q => { s with main := .closeResultChan, jobQueue := q }
      | .error p => { s with panicked := some p })
  | .closeResultChan =>
    some (match s.resultChan.close with
      | .ok c => { s with main := .finish, resultChan := c }
      | .error p => { s with panicked := some p })
  | .finish => some { s with main := .exit }
  | .exit => none

/-- Worker `w`'s `select` takes the job queue's case: a job, or the zero `Job`
once the queue is closed and empty. -/
def takeStep (s : State) (w : Nat) : Option State :=
  match s.workers[w]? with
  | some .select =>
    s.jobQueue.recv.map fun (job, q) =>
      { s with workers := s.workers.set w (.sendResult (job.getD .zero)), jobQueue := q }
  | _ => none

/-- Worker `w`'s `select` takes the `Quit` case, meeting its `Stop` goroutine. -/
def quitStep (s : State) (w : Nat) : Option State :=
  match s.workers[w]?, s.quit[w]? with
  | some .select, some true =>
    some { s with workers := s.workers.set w .stopped, quit := s.quit.set w false }
  | _, _ => none

/-- Worker `w`'s next step on the job it holds.  A send on a nil channel
blocks forever. -/
def workStep (s : State) (w : Nat) : Option State :=
  match s.workers[w]? with
  | some (.sendResult job) =>
    (s.resultChan.send queueCap (result job (w + 1))).map fun
      | .ok c => { s with workers := s.workers.set w (.sendJob job), resultChan := c }
      | .error p => { s with panicked := some p }
  | some (.sendJob job) =>
    match job.result with
    | none => none
    | some r =>
      (s.jobResults[r]?).bind fun c =>
        (c.send 1 (result job (w + 1))).map fun
          | .ok c => { s with workers := s.workers.set w (.closeJob job), jobResults := s.jobResults.set r c }
          | .error p => { s with panicked := some p }
  | some (.closeJob job) =>
    match job.result with
    | none => some { s with panicked := some .closeOfNil }
    | some r =>
      (s.jobResults[r]?).map fun c =>
        match c.close with
        | .ok c => { s with workers := s.workers.set w .select, jobResults := s.jobResults.set r c }
        | .error p => { s with panicked := some p }
  | _ => none

/-- The collector's next receive. -/
def collectStep (s : State) : Option State :=
  if s.collector then
    s.resultChan.recv.map fun
      | (some _, c) => { s with resultChan := c }
      | (none, _) => { s with collector := false }
  else none

/-- A move of one goroutine. -/
inductive Move where
  | main
  | take (w : Nat)
  | quit (w : Nat)
  | work (w : Nat)
  | collect
  deriving DecidableEq, Repr

/-- One move; nothing moves once `main` has returned or a goroutine has
panicked. -/
def step (numJobs : Nat) (s : State) (m : Move) : Option State :=
  if s.panicked.isSome || s.main == .exit then none
  else
    match m with
    | .main => mainStep numJobs s
    | .take w => takeStep s w
    | .quit w => quitStep s w
    | .work w => workStep s w
    | .collect => collectStep s

def run (numJobs : Nat) (s : State) (moves : List Move) : Option State :=
  moves.foldlM (step numJobs) s

def Final (numJobs : Nat) (s : State) : Prop := forall m, step numJobs s m = none

end WorkerPool
