import DelayCall.WorkerPool.Pool

/-!
# What a move of the worker pool can do

One constructor of `Transition` per outcome of a goroutine's step, panics
included.  `step_transition` shows that every move is one of them, and
`Transition.step_eq` that each is made by some move.  The invariants and the
progress argument are then case analyses on `Transition`.
-/

namespace WorkerPool

open Go

/-- The moves of the program, one constructor per outcome of a step. -/
inductive Transition (numJobs : Nat) : State -> State -> Prop where
  | addJob {s : State} {i : Nat} :
      s.main = .addJob i -> i ≤ numJobs -> s.jobQueue.closed = false ->
      s.jobQueue.buf.length < queueCap ->
      Transition numJobs s
        { s with main := .addJob (i + 1),
                 jobQueue := { s.jobQueue with
                   buf := s.jobQueue.buf ++ [⟨i, some s.jobResults.length⟩] },
                 jobResults := s.jobResults ++ [.empty] }
  | addJobClosed {s : State} {i : Nat} :
      s.main = .addJob i -> i ≤ numJobs -> s.jobQueue.closed = true ->
      Transition numJobs s { s with panicked := some .sendOnClosed }
  | addDone {s : State} {i : Nat} :
      s.main = .addJob i -> numJobs < i -> Transition numJobs s { s with main := .await 0 }
  | await {s : State} {k : Nat} {c c' : Chan String} {v : Option String} :
      s.main = .await k -> s.jobResults[k]? = some c -> c.recv = some (v, c') ->
      Transition numJobs s
        { s with main := .await (k + 1), jobResults := s.jobResults.set k c',
                 received := s.received ++ [v.getD ""] }
  | awaitDone {s : State} {k : Nat} :
      s.main = .await k -> s.jobResults.length ≤ k -> Transition numJobs s { s with main := .stop }
  | stop {s : State} :
      s.main = .stop ->
      Transition numJobs s { s with main := .wait, quit := s.quit.map fun _ => true }
  | wait {s : State} :
      s.main = .wait -> s.wg = 0 -> Transition numJobs s { s with main := .closeJobQueue }
  | closeJobQueue {s : State} :
      s.main = .closeJobQueue -> s.jobQueue.closed = false ->
      Transition numJobs s
        { s with main := .closeResultChan, jobQueue := { s.jobQueue with closed := true } }
  | closeJobQueueClosed {s : State} :
      s.main = .closeJobQueue -> s.jobQueue.closed = true ->
      Transition numJobs s { s with panicked := some .closeOfClosed }
  | closeResultChan {s : State} :
      s.main = .closeResultChan -> s.resultChan.closed = false ->
      Transition numJobs s
        { s with main := .finish, resultChan := { s.resultChan with closed := true } }
  | closeResultChanClosed {s : State} :
      s.main = .closeResultChan -> s.resultChan.closed = true ->
      Transition numJobs s { s with panicked := some .closeOfClosed }
  | finish {s : State} : s.main = .finish -> Transition numJobs s { s with main := .exit }
  | take {s : State} {w : Nat} {job : Option Job} {q : Chan Job} :
      s.workers[w]? = some .select -> s.jobQueue.recv = some (job, q) ->
      Transition numJobs s
        { s with workers := s.workers.set w (.sendResult (job.getD .zero)), jobQueue := q }
  | quit {s : State} {w : Nat} :
      s.workers[w]? = some .select -> s.quit[w]? = some true ->
      Transition numJobs s { s with workers := s.workers.set w .stopped, quit := s.quit.set w false }
  | sendResult {s : State} {w : Nat} {job : Job} :
      s.workers[w]? = some (.sendResult job) -> s.resultChan.closed = false ->
      s.resultChan.buf.length < queueCap ->
      Transition numJobs s
        { s with workers := s.workers.set w (.sendJob job),
                 resultChan := { s.resultChan with
                   buf := s.resultChan.buf ++ [result job (w + 1)] } }
  | sendResultClosed {s : State} {w : Nat} {job : Job} :
      s.workers[w]? = some (.sendResult job) -> s.resultChan.closed = true ->
      Transition numJobs s { s with panicked := some .sendOnClosed }
  | sendJob {s : State} {w r : Nat} {job : Job} {c : Chan String} :
      s.workers[w]? = some (.sendJob job) -> job.result = some r -> s.jobResults[r]? = some c ->
      c.closed = false -> c.buf.length < 1 ->
      Transition numJobs s
        { s with workers := s.workers.set w (.closeJob job),
                 jobResults := s.jobResults.set r { c with buf := c.buf ++ [result job (w + 1)] } }
  | sendJobClosed {s : State} {w r : Nat} {job : Job} {c : Chan String} :
      s.workers[w]? = some (.sendJob job) -> job.result = some r -> s.jobResults[r]? = some c ->
      c.closed = true -> Transition numJobs s { s with panicked := some .sendOnClosed }
  | closeJob {s : State} {w r : Nat} {job : Job} {c : Chan String} :
      s.workers[w]? = some (.closeJob job) -> job.result = some r -> s.jobResults[r]? = some c ->
      c.closed = false ->
      Transition numJobs s
        { s with workers := s.workers.set w .select,
                 jobResults := s.jobResults.set r { c with closed := true } }
  | closeJobClosed {s : State} {w r : Nat} {job : Job} {c : Chan String} :
      s.workers[w]? = some (.closeJob job) -> job.result = some r -> s.jobResults[r]? = some c ->
      c.closed = true -> Transition numJobs s { s with panicked := some .closeOfClosed }
  | closeJobNil {s : State} {w : Nat} {job : Job} :
      s.workers[w]? = some (.closeJob job) -> job.result = none ->
      Transition numJobs s { s with panicked := some .closeOfNil }
  | collect {s : State} {v : String} {rest : List String} :
      s.collector = true -> s.resultChan.buf = v :: rest ->
      Transition numJobs s { s with resultChan := { s.resultChan with buf := rest } }
  | collectorExit {s : State} :
      s.collector = true -> s.resultChan.buf = [] -> s.resultChan.closed = true ->
      Transition numJobs s { s with collector := false }

variable {numJobs : Nat} {s s' : State}

theorem mainStep_transition (h : mainStep numJobs s = some s') : Transition numJobs s s' := by
  unfold mainStep at h
  split at h
  · split at h
    · obtain ⟨r, hr, rfl⟩ := Option.map_eq_some'.mp h
      rcases Chan.send_cases hr with ⟨hc, hlen, rfl⟩ | ⟨hc, rfl⟩
      · exact .addJob ‹_› ‹_› hc hlen
      · exact .addJobClosed ‹_› ‹_› hc
    · cases h
      exact .addDone ‹_› (by omega)
  · split at h
    · obtain ⟨⟨v, c'⟩, hr, rfl⟩ := Option.map_eq_some'.mp h
      exact .await ‹_› ‹_› hr
    · cases h
      exact .awaitDone ‹_› (List.getElem?_eq_none_iff.mp ‹_›)
  · cases h
    exact .stop ‹_›
  · split at h
    · cases h
      exact .wait ‹_› ‹_›
    · cases h
  · cases h
    cases hc : s.jobQueue.closed
    · rw [Chan.close_open hc]
      exact .closeJobQueue ‹_› hc
    · rw [Chan.close_closed hc]
      exact .closeJobQueueClosed ‹_› hc
  · cases h
    cases hc : s.resultChan.closed
    · rw [Chan.close_open hc]
      exact .closeResultChan ‹_› hc
    · rw [Chan.close_closed hc]
      exact .closeResultChanClosed ‹_› hc
  · cases h
    exact .finish ‹_›
  · cases h

theorem takeStep_transition {w : Nat} (h : takeStep s w = some s') : Transition numJobs s s' := by
  unfold takeStep at h
  split at h
  · obtain ⟨⟨job, q⟩, hr, rfl⟩ := Option.map_eq_some'.mp h
    exact .take ‹_› hr
  · cases h

theorem quitStep_transition {w : Nat} (h : quitStep s w = some s') : Transition numJobs s s' := by
  unfold quitStep at h
  split at h
  · cases h
    exact .quit ‹_› ‹_›
  · cases h

theorem workStep_transition {w : Nat} (h : workStep s w = some s') : Transition numJobs s s' := by
  unfold workStep at h
  split at h
  · obtain ⟨r, hr, rfl⟩ := Option.map_eq_some'.mp h
    rcases Chan.send_cases hr with ⟨hc, hlen, rfl⟩ | ⟨hc, rfl⟩
    · exact .sendResult ‹_› hc hlen
    · exact .sendResultClosed ‹_› hc
  · split at h
    · cases h
    · obtain ⟨c, hc, h⟩ := Option.bind_eq_some.mp h
      obtain ⟨r, hr, rfl⟩ := Option.map_eq_some'.mp h
      rcases Chan.send_cases hr with ⟨hcl, hlen, rfl⟩ | ⟨hcl, rfl⟩
      · exact .sendJob ‹_› ‹_› hc hcl hlen
      · exact .sendJobClosed ‹_› ‹_› hc hcl
  · split at h
    · cases h
      exact .closeJobNil ‹_› ‹_›
    · obtain ⟨c, hc, rfl⟩ := Option.map_eq_some'.mp h
      cases hcl : c.closed
      · simp only [Chan.close_open hcl]
        exact .closeJob ‹_› ‹_› hc hcl
      · simp only [Chan.close_closed hcl]
        exact .closeJobClosed ‹_› ‹_› hc hcl
  · cases h

theorem collectStep_transition (h : collectStep s = some s') : Transition numJobs s s' := by
  unfold collectStep at h
  split at h
  · obtain ⟨⟨v, c⟩, hr, rfl⟩ := Option.map_eq_some'.mp h
    rcases Chan.recv_cases hr with ⟨v, rest, hb, rfl, rfl⟩ | ⟨hb, hc, rfl, rfl⟩
    · exact .collect ‹_› hb
    · exact .collectorExit ‹_› hb hc
  · cases h

theorem step_transition {m : Move} (h : step numJobs s m = some s') :
    s.panicked = none ∧ s.main ≠ .exit ∧ Transition numJobs s s' := by
  unfold step at h
  split at h
  · cases h
  · rename_i hrun
    simp only [Bool.or_eq_true, Option.isSome_iff_ne_none, beq_iff_eq, not_or, not_not] at hrun
    refine ⟨hrun.1, hrun.2, ?_⟩
    cases m with
    | main => exact mainStep_transition h
    | take w => exact takeStep_transition h
    | quit w => exact quitStep_transition h
    | work w => exact workStep_transition h
    | collect => exact collectStep_transition h

theorem Transition.step_eq (h : Transition numJobs s s') (hp : s.panicked = none)
    (hm : s.main ≠ .exit) : exists m, step numJobs s m = some s' := by
  have hrun : (s.panicked.isSome || s.main == .exit) = false := by simp [hp, hm]
  simp only [step, hrun]
  cases h with
  | addJob hm hi hc hlen => exact ⟨.main, by simp [mainStep, hm, hi, Chan.send_open hc hlen]⟩
  | addJobClosed hm hi hc => exact ⟨.main, by simp [mainStep, hm, hi, Chan.send_closed hc]⟩
  | addDone hm hi => exact ⟨.main, by simp [mainStep, hm, Nat.not_le.mpr hi]⟩
  | await hm hk hr => exact ⟨.main, by simp [mainStep, hm, hk, hr]⟩
  | awaitDone hm hk => exact ⟨.main, by simp [mainStep, hm, List.getElem?_eq_none hk]⟩
  | stop hm => exact ⟨.main, by simp [mainStep, hm]⟩
  | wait hm hw => exact ⟨.main, by simp [mainStep, hm, hw]⟩
  | closeJobQueue hm hc => exact ⟨.main, by simp [mainStep, hm, Chan.close_open hc]⟩
  | closeJobQueueClosed hm hc => exact ⟨.main, by simp [mainStep, hm, Chan.close_closed hc]⟩
  | closeResultChan hm hc => exact ⟨.main, by simp [mainStep, hm, Chan.close_open hc]⟩
  | closeResultChanClosed hm hc => exact ⟨.main, by simp [mainStep, hm, Chan.close_closed hc]⟩
  | finish hm => exact ⟨.main, by simp [mainStep, hm]⟩
  | @take w _ _ hw hr => exact ⟨.take w, by simp [takeStep, hw, hr]⟩
  | @quit w hw hq => exact ⟨.quit w, by simp [quitStep, hw, hq]⟩
  | @sendResult w _ hw hc hlen => exact ⟨.work w, by simp [workStep, hw, Chan.send_open hc hlen]⟩
  | @sendResultClosed w _ hw hc => exact ⟨.work w, by simp [workStep, hw, Chan.send_closed hc]⟩
  | @sendJob w _ _ _ hw hr hk hc hlen =>
    exact ⟨.work w, by simp [workStep, hw, hr, hk, Chan.send_open hc hlen]⟩
  | @sendJobClosed w _ _ _ hw hr hk hc =>
    exact ⟨.work w, by simp [workStep, hw, hr, hk, Chan.send_closed hc]⟩
  | @closeJob w _ _ _ hw hr hk hc => exact ⟨.work w, by simp [workStep, hw, hr, hk, Chan.close_open hc]⟩
  | @closeJobClosed w _ _ _ hw hr hk hc =>
    exact ⟨.work w, by simp [workStep, hw, hr, hk, Chan.close_closed hc]⟩
  | @closeJobNil w _ hw hr => exact ⟨.work w, by simp [workStep, hw, hr]⟩
  | collect hc hb => exact ⟨.collect, by simp [collectStep, hc, Chan.recv, hb]⟩
  | collectorExit hc hb hcl => exact ⟨.collect, by simp [collectStep, hc, Chan.recv_closed hb hcl]⟩

end WorkerPool
