import DelayCall.WorkerPool.Transition

/-!
# Where every job is

The jobs `main` adds are `Job.nth 0`, `Job.nth 1`, ..., in that order.  The
queue holds a contiguous run of them: the ones no worker has taken.  Every
job taken is held by exactly one worker, or has been answered: its worker has
closed the job's channel.  A job's channel is empty until its worker sends its
line.  The line stays there until `main` receives it, and what `main` received
for the `k`-th job is that job's line.

`Jobs` states this over the parts of the state it reads.  Below it is one
lemma per kind of move that changes those parts.
-/

namespace WorkerPool

open Go

/-- The `c`-th job `main` adds. -/
def Job.nth (c : Nat) : Job := ⟨c + 1, some c⟩

def WorkerPc.job? : WorkerPc -> Option Job
  | .sendResult job | .sendJob job | .closeJob job => some job
  | _ => none

def Holds (workers : List WorkerPc) (w c : Nat) : Prop :=
  exists pc, workers[w]? = some pc ∧ pc.job? = some (.nth c)

/-- How many jobs the workers have taken from the queue. -/
def taken (queue : Chan Job) (jobResults : List (Chan String)) : Nat :=
  jobResults.length - queue.buf.length

/-- Job `c`'s channel once worker `w` has sent its line: the line, until
`main` has received it. -/
def answer (received : List String) (c w : Nat) (closed : Bool) : Chan String :=
  ⟨if c < received.length then [] else [result (.nth c) (w + 1)], closed⟩

/-- What worker `w` at `pc` says of the jobs.  Before its line is sent, a
job's channel is empty and `main` has not got to it; the zero `Job` is only
taken from the closed queue. -/
def HoldOk (queue : Chan Job) (jobResults : List (Chan String)) (received : List String)
    (w : Nat) : WorkerPc -> Prop
  | .sendResult job | .sendJob job =>
    (job = .zero ∧ queue.closed = true) ∨
      exists c, job = .nth c ∧ c < taken queue jobResults ∧ received.length ≤ c ∧
        jobResults[c]? = some .empty
  | .closeJob job =>
    exists c, job = .nth c ∧ c < taken queue jobResults ∧
      jobResults[c]? = some (answer received c w false)
  | _ => True

/-- Where every job is (module doc). -/
structure Jobs (n : Nat) (workers : List WorkerPc) (queue : Chan Job)
    (jobResults : List (Chan String)) (received : List String) : Prop where
  length : workers.length = n
  queue_eq : queue.buf = (List.range' (taken queue jobResults) queue.buf.length).map Job.nth
  queue_le : queue.buf.length ≤ jobResults.length
  fresh : forall c, taken queue jobResults ≤ c -> c < jobResults.length ->
    jobResults[c]? = some .empty
  hold : forall (w : Nat) (pc : WorkerPc), workers[w]? = some pc ->
    HoldOk queue jobResults received w pc
  unique : forall w w' c, Holds workers w c -> Holds workers w' c -> w = w'
  done : forall c, c < taken queue jobResults -> (forall w, ¬ Holds workers w c) ->
    ∃ w < n, jobResults[c]? = some (answer received c w true)
  /-- `main` has received only lines of jobs taken. -/
  received_le : received.length ≤ taken queue jobResults
  answers : forall k, k < received.length ->
    ∃ w < n, received[k]? = some (result (.nth k) (w + 1))

/-! ## Small facts -/

theorem Job.nth_inj {c c' : Nat} (h : Job.nth c = Job.nth c') : c = c' := by
  simpa [Job.nth] using congrArg Job.result h

theorem Job.zero_ne_nth (c : Nat) : Job.zero ≠ .nth c := by
  intro h
  simpa [Job.zero, Job.nth] using congrArg Job.result h

theorem answer_append {received : List String} {c : Nat} (x : String) (w : Nat) (b : Bool)
    (hc : c ≠ received.length) : answer (received ++ [x]) c w b = answer received c w b := by
  have : c < received.length + 1 ↔ c < received.length := by omega
  simp [answer, this]

theorem answer_recv (received : List String) (w : Nat) (b : Bool) :
    (answer received received.length w b).recv =
      some (some (result (.nth received.length) (w + 1)),
        answer (received ++ [result (.nth received.length) (w + 1)]) received.length w b) := by
  simp [answer, Chan.recv]

@[simp] theorem taken_set (queue : Chan Job) (jobResults : List (Chan String)) (r : Nat)
    (x : Chan String) : taken queue (jobResults.set r x) = taken queue jobResults := by
  simp [taken]

theorem getElem?_set_cases {α : Type} {l : List α} {i j : Nat} {a b : α}
    (h : (l.set i a)[j]? = some b) : (j = i ∧ b = a) ∨ (j ≠ i ∧ l[j]? = some b) := by
  by_cases hij : i = j
  · subst hij
    have hlt : i < l.length := by simpa using (List.getElem?_eq_some_iff.mp h).1
    rw [List.getElem?_set_self hlt] at h
    exact .inl ⟨rfl, (Option.some.inj h).symm⟩
  · exact .inr ⟨Ne.symm hij, by rwa [List.getElem?_set_ne hij] at h⟩

theorem holds_set {workers : List WorkerPc} {w : Nat} {pc pc' : WorkerPc}
    (hw : workers[w]? = some pc)
    (hjob : forall c, pc'.job? = some (.nth c) ↔ pc.job? = some (.nth c))
    (v c : Nat) : Holds (workers.set w pc') v c ↔ Holds workers v c := by
  constructor
  · rintro ⟨p, hv, hj⟩
    rcases getElem?_set_cases hv with ⟨rfl, rfl⟩ | ⟨-, hv⟩
    · exact ⟨pc, hw, (hjob c).mp hj⟩
    · exact ⟨p, hv, hj⟩
  · rintro ⟨p, hv, hj⟩
    by_cases hvw : v = w
    · subst hvw
      rw [hw] at hv
      cases hv
      exact ⟨pc', List.getElem?_set_self (List.getElem?_eq_some_iff.mp hw).1, (hjob c).mpr hj⟩
    · exact ⟨p, by rwa [List.getElem?_set_ne (Ne.symm hvw)], hj⟩

theorem holds_of_set {workers : List WorkerPc} {w v c : Nat} {pc' : WorkerPc}
    (h : Holds (workers.set w pc') v c) :
    (v = w ∧ pc'.job? = some (.nth c)) ∨ (v ≠ w ∧ Holds workers v c) := by
  obtain ⟨p, hv, hj⟩ := h
  rcases getElem?_set_cases hv with ⟨rfl, rfl⟩ | ⟨hvw, hv⟩
  · exact .inl ⟨rfl, hj⟩
  · exact .inr ⟨hvw, p, hv, hj⟩

theorem HoldOk.mono {queue queue' : Chan Job} {jobResults : List (Chan String)}
    {received : List String} {w : Nat} {pc : WorkerPc} (h : HoldOk queue jobResults received w pc)
    (ht : taken queue jobResults ≤ taken queue' jobResults)
    (hc : queue.closed = true -> queue'.closed = true) :
    HoldOk queue' jobResults received w pc := by
  cases pc with
  | sendResult job | sendJob job =>
    exact h.imp (fun h => ⟨h.1, hc h.2⟩) fun ⟨c, hj, hct, hrec, hcr⟩ => ⟨c, hj, by omega, hrec, hcr⟩
  | closeJob job =>
    obtain ⟨c, hj, hct, hcr⟩ := h
    exact ⟨c, hj, by omega, hcr⟩
  | _ => trivial

theorem HoldOk.set_chan {queue : Chan Job} {jobResults : List (Chan String)}
    {received : List String} {w r : Nat} {pc : WorkerPc} (x : Chan String)
    (h : HoldOk queue jobResults received w pc) (hr : pc.job? ≠ some (.nth r)) :
    HoldOk queue (jobResults.set r x) received w pc := by
  have hget : forall c, Job.nth c ≠ Job.nth r -> (jobResults.set r x)[c]? = jobResults[c]? :=
    fun c hc => List.getElem?_set_ne fun h => hc (by rw [h])
  cases pc with
  | sendResult job | sendJob job =>
    simp only [HoldOk, taken, List.length_set] at h ⊢
    exact h.imp_right fun ⟨c, hj, hct, hrec, hcr⟩ =>
      ⟨c, hj, hct, hrec, by rw [hget c (hj ▸ by simpa [WorkerPc.job?] using hr), hcr]⟩
  | closeJob job =>
    obtain ⟨c, hj, hct, hcr⟩ := h
    exact ⟨c, hj, by simpa [taken] using hct,
      by rw [hget c (hj ▸ by simpa [WorkerPc.job?] using hr), hcr]⟩
  | _ => trivial

section

variable {n : Nat} {workers : List WorkerPc} {queue : Chan Job}
  {jobResults : List (Chan String)} {received : List String}

theorem Jobs.held_lt (h : Jobs n workers queue jobResults received) {w c : Nat}
    (hw : Holds workers w c) : c < taken queue jobResults := by
  obtain ⟨pc, hw, hj⟩ := hw
  have hh := h.hold w pc hw
  cases pc with
  | sendResult job | sendJob job =>
    simp only [WorkerPc.job?, Option.some.injEq] at hj
    subst hj
    rcases hh with ⟨hz, -⟩ | ⟨c', hc', hct, -⟩
    · exact absurd hz.symm (Job.zero_ne_nth c)
    · exact Job.nth_inj hc' ▸ hct
  | closeJob job =>
    simp only [WorkerPc.job?, Option.some.injEq] at hj
    subst hj
    obtain ⟨c', hc', hct, -⟩ := hh
    exact Job.nth_inj hc' ▸ hct
  | _ => cases hj

theorem Jobs.sendJob_chan (h : Jobs n workers queue jobResults received) {w r : Nat} {job : Job}
    (hw : workers[w]? = some (.sendJob job)) (hr : job.result = some r) :
    job = .nth r ∧ r < taken queue jobResults ∧ received.length ≤ r ∧
      jobResults[r]? = some .empty := by
  rcases h.hold w _ hw with ⟨rfl, -⟩ | ⟨c, rfl, hct, hrec, hc⟩
  · cases hr
  · obtain rfl : c = r := Option.some.inj hr
    exact ⟨rfl, hct, hrec, hc⟩

theorem Jobs.closeJob_chan (h : Jobs n workers queue jobResults received) {w : Nat} {job : Job}
    (hw : workers[w]? = some (.closeJob job)) :
    exists r, job = .nth r ∧ r < taken queue jobResults ∧
      jobResults[r]? = some (answer received r w false) :=
  h.hold w _ hw

theorem Jobs.fresh_set (h : Jobs n workers queue jobResults received) {r : Nat}
    (hr : r < taken queue jobResults) (x : Chan String) (c : Nat)
    (hc : taken queue (jobResults.set r x) ≤ c) (hlt : c < (jobResults.set r x).length) :
    (jobResults.set r x)[c]? = some .empty := by
  rw [taken_set] at hc
  rw [List.getElem?_set_ne (by omega)]
  exact h.fresh c hc (by simpa using hlt)

/-! ## How the moves change where the jobs are -/

theorem Jobs.init (n : Nat) : Jobs n (List.replicate n .select) .empty [] [] where
  length := List.length_replicate _ _
  queue_eq := rfl
  queue_le := le_rfl
  fresh _ _ h := absurd h (Nat.not_lt_zero _)
  hold w pc hw := by
    obtain ⟨-, rfl⟩ : w < n ∧ WorkerPc.select = pc := by simpa [List.getElem?_replicate] using hw
    trivial
  unique w _ c hw _ := by
    obtain ⟨pc, hw, hj⟩ := hw
    obtain ⟨-, rfl⟩ : w < n ∧ WorkerPc.select = pc := by simpa [List.getElem?_replicate] using hw
    cases hj
  done _ h := absurd h (Nat.not_lt_zero _)
  received_le := Nat.zero_le _
  answers _ h := absurd h (Nat.not_lt_zero _)

theorem Jobs.closeQueue (h : Jobs n workers queue jobResults received) :
    Jobs n workers { queue with closed := true } jobResults received :=
  { h with hold := fun w pc hw => (h.hold w pc hw).mono le_rfl fun _ => rfl }

theorem Jobs.addJob (h : Jobs n workers queue jobResults received) :
    Jobs n workers { queue with buf := queue.buf ++ [.nth jobResults.length] }
      (jobResults ++ [.empty]) received := by
  have hle := h.queue_le
  have ht : taken { queue with buf := queue.buf ++ [.nth jobResults.length] }
      (jobResults ++ [.empty]) = taken queue jobResults := by
    simp only [taken, List.length_append, List.length_singleton]
    omega
  have hlt : forall c, c < taken queue jobResults -> c < jobResults.length := by
    unfold taken
    omega
  have hget : forall c, c < jobResults.length ->
      (jobResults ++ [Chan.empty])[c]? = jobResults[c]? := fun c hc =>
    List.getElem?_append_left hc
  refine ⟨h.length, ?_, by simpa using hle, ?_, ?_, h.unique, ?_, ht ▸ h.received_le, h.answers⟩
  · rw [ht, List.length_append, List.length_singleton, List.range'_concat, List.map_append,
      ← h.queue_eq]
    simp only [taken]
    congr 3
    omega
  · intro c hc hlen
    rw [ht] at hc
    rcases Nat.lt_or_ge c jobResults.length with hc' | hc'
    · rw [hget c hc']
      exact h.fresh c hc hc'
    · obtain rfl : c = jobResults.length := by simp at hlen; omega
      simp
  · intro w pc hw
    have hh := h.hold w pc hw
    cases pc with
    | sendResult job | sendJob job =>
      simp only [HoldOk, ht] at hh ⊢
      exact hh.imp_right fun ⟨c, hc, hct, hrec, hcr⟩ =>
        ⟨c, hc, hct, hrec, by rw [hget c (hlt c hct), hcr]⟩
    | closeJob job =>
      obtain ⟨c, hc, hct, hcr⟩ := hh
      exact ⟨c, hc, ht ▸ hct, by rw [hget c (hlt c hct), hcr]⟩
    | _ => trivial
  · intro c hc hfree
    rw [ht] at hc
    rw [hget c (hlt c hc)]
    exact h.done c hc hfree

theorem Jobs.set_worker (h : Jobs n workers queue jobResults received) {w : Nat}
    {pc pc' : WorkerPc} (hw : workers[w]? = some pc)
    (hjob : forall c, pc'.job? = some (.nth c) ↔ pc.job? = some (.nth c))
    (hok : HoldOk queue jobResults received w pc') :
    Jobs n (workers.set w pc') queue jobResults received where
  length := by rw [List.length_set, h.length]
  queue_eq := h.queue_eq
  queue_le := h.queue_le
  fresh := h.fresh
  hold w' pc'' hw' := by
    rcases getElem?_set_cases hw' with ⟨rfl, rfl⟩ | ⟨-, hw'⟩
    · exact hok
    · exact h.hold w' pc'' hw'
  unique w₁ w₂ c h₁ h₂ :=
    h.unique w₁ w₂ c ((holds_set hw hjob _ _).mp h₁) ((holds_set hw hjob _ _).mp h₂)
  done c hc hfree := h.done c hc fun v hv => hfree v ((holds_set hw hjob _ _).mpr hv)
  received_le := h.received_le
  answers := h.answers

/-- A worker at its `select` takes the next job from the queue, or the zero
`Job` from the closed, empty queue. -/
theorem Jobs.take (h : Jobs n workers queue jobResults received) {w : Nat} {job : Option Job}
    {q : Chan Job} (hw : workers[w]? = some .select) (hr : queue.recv = some (job, q)) :
    Jobs n (workers.set w (.sendResult (job.getD .zero))) q jobResults received := by
  rcases Chan.recv_cases hr with ⟨v, rest, hb, rfl, rfl⟩ | ⟨hb, hc, rfl, rfl⟩
  · have hle := h.queue_le
    have hq := h.queue_eq
    rw [hb] at hq hle
    simp only [List.length_cons, List.range'_succ, List.map_cons, List.cons.injEq] at hq hle
    obtain ⟨rfl, hrest⟩ := hq
    have hlen : queue.buf.length = rest.length + 1 := by rw [hb]; rfl
    have ht' : taken { queue with buf := rest } jobResults = taken queue jobResults + 1 := by
      simp only [taken, hlen]
      omega
    have hfresh := h.fresh (taken queue jobResults) le_rfl (by
      simp only [taken, hlen]
      omega)
    have hnew : forall v c,
        Holds (workers.set w (.sendResult (Job.nth (taken queue jobResults)))) v c ->
        (v = w ∧ c = taken queue jobResults) ∨ (v ≠ w ∧ Holds workers v c) := by
      rintro v c ⟨p, hv, hj⟩
      rcases getElem?_set_cases hv with ⟨rfl, rfl⟩ | ⟨hvw, hv⟩
      · exact .inl ⟨rfl, (Job.nth_inj (Option.some.inj hj)).symm⟩
      · exact .inr ⟨hvw, p, hv, hj⟩
    refine ⟨by rw [List.length_set, h.length], by rw [ht']; exact hrest, by simp; omega,
      fun c hc hlt => h.fresh c (by omega) hlt, ?_, ?_, ?_, by have := h.received_le; omega,
      h.answers⟩
    · intro w' pc' hw'
      rcases getElem?_set_cases hw' with ⟨rfl, rfl⟩ | ⟨-, hw'⟩
      · exact .inr ⟨_, rfl, by omega, h.received_le, hfresh⟩
      · exact (h.hold w' pc' hw').mono (by omega) id
    · intro w₁ w₂ c h₁ h₂
      rcases hnew _ _ h₁ with ⟨rfl, hc₁⟩ | ⟨-, h₁'⟩ <;>
        rcases hnew _ _ h₂ with ⟨rfl, hc₂⟩ | ⟨-, h₂'⟩
      · rfl
      · exact absurd (h.held_lt h₂') (by omega)
      · exact absurd (h.held_lt h₁') (by omega)
      · exact h.unique w₁ w₂ c h₁' h₂'
    · intro c hc hfree
      have hct : c ≠ taken queue jobResults := by
        rintro rfl
        exact hfree w ⟨_, List.getElem?_set_self (List.getElem?_eq_some_iff.mp hw).1, rfl⟩
      refine h.done c (by omega) fun v ⟨p, hv, hj⟩ => ?_
      by_cases hvw : v = w
      · subst hvw
        rw [hw] at hv
        cases hv
        cases hj
      · exact hfree v ⟨p, by rwa [List.getElem?_set_ne (Ne.symm hvw)], hj⟩
  · exact h.set_worker hw (fun c => by simp [WorkerPc.job?, Job.zero_ne_nth]) (.inl ⟨rfl, hc⟩)

theorem Jobs.sendJob (h : Jobs n workers queue jobResults received) {w r : Nat} {job : Job}
    {c : Chan String} (hw : workers[w]? = some (.sendJob job)) (hr : job.result = some r)
    (hc : jobResults[r]? = some c) :
    Jobs n (workers.set w (.closeJob job)) queue
      (jobResults.set r { c with buf := c.buf ++ [result job (w + 1)] }) received := by
  obtain ⟨rfl, hrt, hrec, hc'⟩ := h.sendJob_chan hw hr
  obtain rfl : c = .empty := Option.some.inj (hc.symm.trans hc')
  have hx : { (Chan.empty : Chan String) with buf := [] ++ [result (.nth r) (w + 1)] } =
      answer received r w false := by
    simp [answer, Chan.empty, Nat.not_lt.mpr hrec]
  have ht := taken_set queue jobResults r (answer received r w false)
  have hheld : Holds workers w r := ⟨_, hw, rfl⟩
  have hjob : forall c, (WorkerPc.closeJob (.nth r)).job? = some (.nth c) ↔
      (WorkerPc.sendJob (.nth r)).job? = some (.nth c) := fun _ => Iff.rfl
  simp only [Chan.empty_buf, hx]
  refine ⟨by rw [List.length_set, h.length], ht ▸ h.queue_eq, by simpa using h.queue_le,
    h.fresh_set hrt _, fun w' pc' hw' => ?_,
    fun w₁ w₂ c h₁ h₂ => h.unique w₁ w₂ c ((holds_set hw hjob _ _).mp h₁)
      ((holds_set hw hjob _ _).mp h₂), fun c hc hfree => ?_, ht ▸ h.received_le, h.answers⟩
  · rcases getElem?_set_cases hw' with ⟨rfl, rfl⟩ | ⟨hne, hw'⟩
    · exact ⟨r, rfl, ht.symm ▸ hrt,
        List.getElem?_set_self (List.getElem?_eq_some_iff.mp hc').1⟩
    · exact (h.hold w' pc' hw').set_chan _ fun hj => hne (h.unique w' w r ⟨pc', hw', hj⟩ hheld)
  · rw [ht] at hc
    have hfree' : forall v, ¬ Holds workers v c := fun v hv => hfree v ((holds_set hw hjob _ _).mpr hv)
    have hcr : r ≠ c := fun hrc => hfree' w (hrc ▸ hheld)
    rw [List.getElem?_set_ne hcr]
    exact h.done c hc hfree'

theorem Jobs.closeJob (h : Jobs n workers queue jobResults received) {w r : Nat} {job : Job}
    {c : Chan String} (hw : workers[w]? = some (.closeJob job)) (hr : job.result = some r)
    (hc : jobResults[r]? = some c) :
    Jobs n (workers.set w .select) queue (jobResults.set r { c with closed := true }) received := by
  obtain ⟨r', rfl, hrt, hc'⟩ := h.closeJob_chan hw
  obtain rfl : r' = r := Option.some.inj hr
  obtain rfl : c = answer received r' w false := Option.some.inj (hc.symm.trans hc')
  change Jobs n (workers.set w .select) queue (jobResults.set r' (answer received r' w true)) received
  have ht := taken_set queue jobResults r' (answer received r' w true)
  have hheld : Holds workers w r' := ⟨_, hw, rfl⟩
  have hwn : w < n := h.length ▸ (List.getElem?_eq_some_iff.mp hw).1
  have hback : forall v c, Holds (workers.set w .select) v c -> v ≠ w ∧ Holds workers v c :=
    fun v c hv => (holds_of_set hv).resolve_left fun ⟨_, hj⟩ => nomatch hj
  refine ⟨by rw [List.length_set, h.length], ht ▸ h.queue_eq, by simpa using h.queue_le,
    h.fresh_set hrt _, fun w' pc' hw' => ?_,
    fun w₁ w₂ c h₁ h₂ => h.unique w₁ w₂ c (hback _ _ h₁).2 (hback _ _ h₂).2,
    fun c hc hfree => ?_, ht ▸ h.received_le, h.answers⟩
  · rcases getElem?_set_cases hw' with ⟨rfl, rfl⟩ | ⟨hne, hw'⟩
    · trivial
    · exact (h.hold w' pc' hw').set_chan _ fun hj => hne (h.unique w' w r' ⟨pc', hw', hj⟩ hheld)
  · rw [ht] at hc
    by_cases hcr : c = r'
    · subst hcr
      exact ⟨w, hwn, List.getElem?_set_self (List.getElem?_eq_some_iff.mp hc').1⟩
    · rw [List.getElem?_set_ne (Ne.symm hcr)]
      refine h.done c hc fun v ⟨p, hp, hj⟩ => ?_
      by_cases hvw : v = w
      · subst hvw
        rw [hw] at hp
        cases hp
        exact hcr (Job.nth_inj (Option.some.inj hj)).symm
      · exact hfree v ⟨p, by rwa [List.getElem?_set_ne (Ne.symm hvw)], hj⟩

/-- The channel of the job `main` waits for, once a receive from it does not
block: its worker has sent the line, and still holds the job just while the
channel is open. -/
theorem Jobs.await_chan (h : Jobs n workers queue jobResults received) {c c' : Chan String}
    {v : Option String} (hc : jobResults[received.length]? = some c) (hr : c.recv = some (v, c')) :
    received.length < taken queue jobResults ∧ ∃ w < n, ∃ b, c = answer received received.length w b ∧
      (b = false -> Holds workers w received.length) ∧
      (b = true -> forall v, ¬ Holds workers v received.length) := by
  have hne : c ≠ .empty := by
    rintro rfl
    simp at hr
  have hlt : received.length < taken queue jobResults := by
    refine Nat.lt_of_not_le fun hge => hne ?_
    exact Option.some.inj (hc.symm.trans (h.fresh _ hge (List.getElem?_eq_some_iff.mp hc).1))
  refine ⟨hlt, ?_⟩
  by_cases hheld : exists w, Holds workers w received.length
  · obtain ⟨w, pc, hw, hj⟩ := hheld
    have hh := h.hold w pc hw
    cases pc with
    | sendResult job | sendJob job =>
      obtain rfl := Option.some.inj hj
      rcases hh with ⟨hz, -⟩ | ⟨c'', hc'', -, -, hcr⟩
      · exact absurd hz.symm (Job.zero_ne_nth _)
      · obtain rfl := Job.nth_inj hc''
        exact absurd (Option.some.inj (hc.symm.trans hcr)) hne
    | closeJob job =>
      obtain rfl := Option.some.inj hj
      obtain ⟨c'', hc'', -, hcr⟩ := hh
      obtain rfl := Job.nth_inj hc''
      exact ⟨w, h.length ▸ (List.getElem?_eq_some_iff.mp hw).1, false,
        Option.some.inj (hc.symm.trans hcr), fun _ => ⟨_, hw, rfl⟩, fun h => nomatch h⟩
    | select | stopped => cases hj
  · push_neg at hheld
    obtain ⟨w, hwn, hcw⟩ := h.done _ hlt hheld
    exact ⟨w, hwn, true, Option.some.inj (hc.symm.trans hcw), fun h => (nomatch h), fun _ => hheld⟩

theorem Jobs.await (h : Jobs n workers queue jobResults received) {c c' : Chan String}
    {v : Option String} (hc : jobResults[received.length]? = some c) (hr : c.recv = some (v, c')) :
    ∃ w < n, v = some (result (.nth received.length) (w + 1)) ∧
      Jobs n workers queue (jobResults.set received.length c') (received ++ [v.getD ""]) := by
  obtain ⟨hlt, w, hwn, b, rfl, hfalse, htrue⟩ := h.await_chan hc hr
  obtain ⟨rfl, rfl⟩ := Prod.mk.inj (Option.some.inj (hr.symm.trans (answer_recv _ _ _)))
  refine ⟨w, hwn, rfl, ?_⟩
  have hk : received.length < jobResults.length := (List.getElem?_eq_some_iff.mp hc).1
  have ht := taken_set queue jobResults received.length
    (answer (received ++ [result (.nth received.length) (w + 1)]) received.length w b)
  have hans : answer received received.length w b ≠ .empty := by simp [answer, Chan.empty]
  simp only [Option.getD_some]
  refine ⟨h.length, ht ▸ h.queue_eq, by simpa using h.queue_le, h.fresh_set hlt _,
    fun w' pc' hw' => ?_, h.unique, fun c hc' hfree => ?_, by simp; omega, fun k hk' => ?_⟩
  · have hh := h.hold w' pc' hw'
    cases pc' with
    | sendResult job | sendJob job =>
      simp only [HoldOk, ht] at hh ⊢
      refine hh.imp_right fun ⟨c, hj, hct, hrec, hcr⟩ => ?_
      have hck : received.length ≠ c := fun hck => hans (Option.some.inj (hc.symm.trans (hck ▸ hcr)))
      exact ⟨c, hj, hct, by simp; omega, by rw [List.getElem?_set_ne hck, hcr]⟩
    | closeJob job =>
      obtain ⟨c, rfl, hct, hcr⟩ := hh
      refine ⟨c, rfl, ht ▸ hct, ?_⟩
      by_cases hck : c = received.length
      · subst hck
        have hw'k : Holds workers w' received.length := ⟨_, hw', rfl⟩
        cases b with
        | false =>
          obtain rfl := h.unique w' w _ hw'k (hfalse rfl)
          exact List.getElem?_set_self hk
        | true => exact absurd hw'k (htrue rfl w')
      · rw [List.getElem?_set_ne (Ne.symm hck), hcr, answer_append _ _ _ hck]
    | select | stopped => trivial
  · rw [ht] at hc'
    by_cases hck : c = received.length
    · subst hck
      cases b with
      | false => exact absurd (hfalse rfl) (hfree w)
      | true => exact ⟨w, hwn, List.getElem?_set_self hk⟩
    · obtain ⟨w'', hw'', hcw⟩ := h.done c hc' hfree
      exact ⟨w'', hw'', by rw [List.getElem?_set_ne (Ne.symm hck), hcw, answer_append _ _ _ hck]⟩
  · rcases Nat.lt_or_ge k received.length with hk'' | hk''
    · rw [List.getElem?_append_left hk'']
      exact h.answers k hk''
    · obtain rfl : k = received.length := by simp at hk'; omega
      exact ⟨w, hwn, by simp⟩

/-- While `main` waits on the channel of the job it is at, that job is still in
the queue, or a worker holds it and has not yet sent on the channel. -/
theorem Jobs.waiting (h : Jobs n workers queue jobResults received) {c : Chan String}
    (hc : jobResults[received.length]? = some c) (hr : c.recv = none) :
    taken queue jobResults ≤ received.length ∨
      exists w : Nat, workers[w]? = some (WorkerPc.sendResult (.nth received.length)) ∨
        workers[w]? = some (WorkerPc.sendJob (.nth received.length)) := by
  refine (Nat.lt_or_ge _ _).elim (fun hlt => .inr ?_) .inl
  have hsent : forall w b, c ≠ answer received received.length w b := by
    rintro w b rfl
    simp [answer_recv] at hr
  by_cases hheld : exists w, Holds workers w received.length
  · obtain ⟨w, pc, hw, hj⟩ := hheld
    cases pc with
    | sendResult job => exact ⟨w, .inl (Option.some.inj hj ▸ hw)⟩
    | sendJob job => exact ⟨w, .inr (Option.some.inj hj ▸ hw)⟩
    | closeJob job =>
      obtain ⟨r, hr', -, hcr⟩ := h.closeJob_chan hw
      obtain rfl := Job.nth_inj (hr'.symm.trans (Option.some.inj hj))
      exact absurd (Option.some.inj (hc.symm.trans hcr)) (hsent w false)
    | select | stopped => cases hj
  · push_neg at hheld
    obtain ⟨w, -, hcw⟩ := h.done _ hlt hheld
    exact absurd (Option.some.inj (hc.symm.trans hcw)) (hsent w true)

end

end WorkerPool
