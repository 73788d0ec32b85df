import DelayCall.Pipeline.Chain

/-!
# Every run of the pipeline

The invariant ties `main`'s `results` and the items in flight to the input
processed in order.  A move never reopens a channel, and a stage returns only
once its input is closed.  So once `main` has left its loop, every channel is
closed and every item has arrived.  While `main` is in its loop some goroutine
can move, and each move lowers a count of the moves left.  So every run is
short, and the runs that cannot be extended end with `main` holding every item.
-/

namespace PipelineDemo

variable {α : Type} {bodies : List (α -> Option (Option α))} {input : List α} {s s' : State α}

/-! ## Channels stay closed -/

theorem set_keeps_done {pcs : List (Pc α)} {k i : Nat} {p : Pc α} (q : Pc α)
    (hp : pcs[k]? = some p) (hne : p ≠ .done) (hi : pcs[i]? = some .done) :
    (pcs.set k q)[i]? = some .done := by
  have hki : k ≠ i := by
    rintro rfl
    exact hne (Option.some.inj (hp.symm.trans hi))
  rw [List.getElem?_set_ne hki, hi]

theorem done_of_set {pcs : List (Pc α)} {k i : Nat} {q : Pc α}
    (h : (pcs.set k q)[i]? = some .done) : pcs[i]? = some .done ∨ (i = k ∧ q = .done) := by
  rw [List.getElem?_set] at h
  by_cases hki : k = i
  · rw [if_pos hki] at h
    split at h
    · exact .inr ⟨hki.symm, Option.some.inj h⟩
    · cases h
  · rw [if_neg hki] at h
    exact .inl h

theorem Transition.length (h : Transition bodies s s') : s'.stages.length = s.stages.length := by
  cases h <;> simp

theorem Transition.keeps_done (h : Transition bodies s s') {i : Nat}
    (hi : s.stages[i]? = some .done) : s'.stages[i]? = some .done := by
  cases h with
  | enter _ h₀ => exact set_keeps_done (p := .recv) _ h₀ nofun hi
  | hand hk hk₁ =>
    refine set_keeps_done (p := .recv) _ ?_ nofun (set_keeps_done (p := .send _) _ hk nofun hi)
    rwa [List.getElem?_set_ne (by omega)]
  | collect hk => exact set_keeps_done (p := .send _) _ hk nofun hi
  | exit hk => exact set_keeps_done (p := .recv) _ hk nofun hi
  | _ => exact hi

theorem Transition.closed_mono (h : Transition bodies s s') {k : Nat}
    (hc : s.closed k = true) : s'.closed k = true := by
  cases k with
  | zero => cases h <;> first | exact hc | rfl
  | succ k => exact closed_succ.mpr (h.keeps_done (closed_succ.mp hc))

theorem Transition.done_cases (h : Transition bodies s s') {i : Nat}
    (hi : s'.stages[i]? = some .done) : s.stages[i]? = some .done ∨ s.closed i = true := by
  cases h with
  | enter => exact (done_of_set hi).imp_right fun h => absurd h.2 (Pc.next_ne_done _)
  | hand =>
    rcases done_of_set hi with hi | ⟨-, hq⟩
    · exact (done_of_set hi).imp_right fun h => nomatch h.2
    · exact absurd hq (Pc.next_ne_done _)
  | collect => exact (done_of_set hi).imp_right fun h => nomatch h.2
  | exit _ hc =>
    rcases done_of_set hi with hi | ⟨rfl, -⟩
    · exact .inl hi
    · exact .inr hc
  | _ => exact .inl hi

theorem Transition.finished_cases (h : Transition bodies s s') (hf : s'.finished = true) :
    s.finished = true ∨ s.closed s.stages.length = true := by
  cases h with
  | exitMain _ hc => exact .inr hc
  | _ => exact .inl hf

/-! ## The invariant -/

/-- What holds in every state the pipeline reaches from `input`. -/
structure Inv (bodies : List (α -> Option (Option α))) (input : List α) (s : State α) : Prop where
  length : s.stages.length = bodies.length
  /-- `main`'s results, then what is still to come out, are the processed input. -/
  flow : s.results ++ drain bodies s.stages s.source = process bodies input
  closedEmpty : s.sourceClosed = true -> s.source = []
  /-- A stage returns only once its input is closed. -/
  upstream : forall k, s.stages[k]? = some .done -> s.closed k = true
  main : s.finished = true -> s.closed s.stages.length = true

theorem Inv.init : Inv bodies input (init bodies.length input) where
  length := List.length_replicate _ _
  flow := drain_init bodies input
  closedEmpty := nofun
  upstream k hk := by simp [PipelineDemo.init, List.getElem?_replicate] at hk
  main := nofun

/-- The items in flight move on, and none is lost or made twice. -/
theorem Transition.flow (h : Transition bodies s s') (hlen : s.stages.length = bodies.length) :
    s'.results ++ drain bodies s'.stages s'.source = s.results ++ drain bodies s.stages s.source := by
  cases h with
  | enter hsrc h₀ hb ho => exact congrArg _ (hsrc ▸ drain_enter _ h₀ hb ho)
  | hand hk hk₁ hb ho => exact congrArg _ (drain_hand _ hk hk₁ hb ho)
  | collectSource hnil hsrc => simp [hnil, hsrc]
  | collect hk hk₁ => simp [drain_collect s.source hk hk₁ hlen.le]
  | exit hk => exact congrArg _ (drain_set_of_held _ hk rfl)
  | _ => rfl

theorem Inv.step (hi : Inv bodies input s) (h : Transition bodies s s') : Inv bodies input s' where
  length := h.length.trans hi.length
  flow := (h.flow hi.length).trans hi.flow
  closedEmpty hc := by
    cases h with
    | enter hsrc | collectSource _ hsrc => exact absurd (hi.closedEmpty hc) (by simp [hsrc])
    | closeSource hsrc => exact hsrc
    | _ => exact hi.closedEmpty hc
  upstream k hk := (h.done_cases hk).elim (fun hd => h.closed_mono (hi.upstream k hd)) h.closed_mono
  main hf := h.length ▸ (h.finished_cases hf).elim (fun hf => h.closed_mono (hi.main hf))
    h.closed_mono

/-! ## Once `main` has left its loop -/

theorem Inv.closed_le (hi : Inv bodies input s) :
    forall {n : Nat}, s.closed n = true -> ∀ k ≤ n, s.closed k = true
  | 0, hc, _, hk => Nat.le_zero.mp hk ▸ hc
  | n + 1, hc, k, hk => by
    rcases Nat.lt_or_eq_of_le hk with hk | rfl
    · exact hi.closed_le (hi.upstream n (closed_succ.mp hc)) k (by omega)
    · exact hc

theorem Inv.complete (hi : Inv bodies input s) (hf : s.finished = true) :
    s.results = process bodies input := by
  have hc := hi.closed_le (hi.main hf)
  have hsrc : s.source = [] := hi.closedEmpty (hc 0 (Nat.zero_le _))
  have hdone : ∀ pc ∈ s.stages, pc.held = [] := by
    intro pc hpc
    obtain ⟨k, hk, rfl⟩ := List.getElem_of_mem hpc
    have := closed_succ.mp (hc (k + 1) hk)
    simp_all
  simpa [hsrc, drain_eq_nil hdone] using hi.flow

/-! ## Progress -/

/-- The reader of channel `k` waits for an item: stage `k` at the head of its
loop, or `main` in its loop. -/
def Waiting (s : State α) (k : Nat) : Prop :=
  s.stages[k]? = some .recv ∨ (k = s.stages.length ∧ s.finished = false)

section Progress

variable (hlen : s.stages.length = bodies.length)
  (htotal : ∀ body ∈ bodies, forall item, (body item).isSome)

include hlen htotal in
theorem body_runs {k : Nat} (hk : s.stages[k]? = some .recv) (item : α) :
    exists body out, bodies[k]? = some body ∧ body item = some out := by
  have hlt : k < bodies.length := hlen ▸ (List.getElem?_eq_some_iff.mp hk).1
  exact ⟨bodies[k], Option.get _ (htotal _ (List.getElem_mem hlt) item),
    List.getElem?_eq_getElem hlt, by simp⟩

include hlen htotal in
/-- If the reader of some channel waits, some goroutine can move: follow the
chain upstream to the first writer that is not itself waiting. -/
theorem waiting_transition : forall k, Waiting s k -> exists s', Transition bodies s s'
  | 0, hw => by
    cases hsrc : s.source with
    | cons item rest =>
      rcases hw with h₀ | ⟨h₀, hfin⟩
      · obtain ⟨body, out, hb, ho⟩ := body_runs hlen htotal h₀ item
        exact ⟨_, .enter hsrc h₀ hb ho⟩
      · exact ⟨_, .collectSource (List.length_eq_zero.mp h₀.symm) hsrc hfin⟩
    | nil =>
      cases hc : s.sourceClosed
      · exact ⟨_, .closeSource hsrc hc⟩
      · rcases hw with h₀ | ⟨h₀, hfin⟩
        · exact ⟨_, .exit h₀ hc⟩
        · exact ⟨_, .exitMain hfin (h₀ ▸ hc)⟩
  | k + 1, hw => by
    have hk : k < s.stages.length := by
      rcases hw with h | ⟨h, -⟩
      · have := (List.getElem?_eq_some_iff.mp h).1
        omega
      · omega
    cases hpc : s.stages[k] with
    | recv => exact waiting_transition k (.inl (List.getElem?_eq_some_iff.mpr ⟨hk, hpc⟩))
    | send item =>
      have hs : s.stages[k]? = some (.send item) := List.getElem?_eq_some_iff.mpr ⟨hk, hpc⟩
      rcases hw with h₁ | ⟨h₁, hfin⟩
      · obtain ⟨body, out, hb, ho⟩ := body_runs hlen htotal h₁ item
        exact ⟨_, .hand hs h₁ hb ho⟩
      · exact ⟨_, .collect hs h₁ hfin⟩
    | done =>
      have hc : s.closed (k + 1) = true := closed_succ.mpr (List.getElem?_eq_some_iff.mpr ⟨hk, hpc⟩)
      rcases hw with h₁ | ⟨h₁, hfin⟩
      · exact ⟨_, .exit h₁ hc⟩
      · exact ⟨_, .exitMain hfin (h₁ ▸ hc)⟩

include hlen htotal in
theorem final_finished (hfinal : Final bodies s) : s.finished = true := by
  by_contra hf
  obtain ⟨s', h⟩ := waiting_transition hlen htotal _ (.inr ⟨rfl, by simpa using hf⟩)
  obtain ⟨m, hm⟩ := h.step_eq
  exact absurd (hfinal m) (by simp [hm])

end Progress

/-! ## Every run is short -/

/-- Moves left to a stage with `ahead` stages after it: for a held item, one
hop per stage ahead and one into `main`; then its exit. -/
def Pc.cost (ahead : Nat) : Pc α -> Nat
  | .recv => 1
  | .send _ => ahead + 2
  | .done => 0

/-- `Pc.cost` over a chain of stages. -/
def cost : List (Pc α) -> Nat
  | [] => 0
  | pc :: pcs => pc.cost pcs.length + cost pcs

/-- The moves left: `n + 1` hops for each item `generateData` has still to
send, the stages' moves, and the closing of the source and of `main`'s loop. -/
def pending (s : State α) : Nat :=
  (s.stages.length + 1) * s.source.length + (!s.sourceClosed).toNat + cost s.stages +
    (!s.finished).toNat

@[simp] theorem Pc.cost_recv (ahead : Nat) : (Pc.recv : Pc α).cost ahead = 1 := rfl

@[simp] theorem Pc.cost_send (ahead : Nat) (item : α) : (Pc.send item).cost ahead = ahead + 2 := rfl

@[simp] theorem Pc.cost_done (ahead : Nat) : (Pc.done : Pc α).cost ahead = 0 := rfl

theorem Pc.cost_next_le (out : Option α) (ahead : Nat) : (Pc.next out).cost ahead ≤ ahead + 2 := by
  cases out <;> simp [Pc.next]

theorem cost_set : forall {pcs : List (Pc α)} {k : Nat} {p : Pc α} (q : Pc α), pcs[k]? = some p ->
    cost (pcs.set k q) + p.cost (pcs.length - (k + 1)) = cost pcs + q.cost (pcs.length - (k + 1))
  | _ :: _, 0, _, _, h => by
    simp only [List.getElem?_cons_zero, Option.some.injEq] at h
    subst h
    simp [cost]
    omega
  | _ :: pcs, k + 1, p, q, h => by
    have ih := cost_set q (List.getElem?_cons_succ ▸ h)
    simp only [List.set_cons_succ, cost, List.length_set, List.length_cons,
      Nat.add_sub_add_right] at ih ⊢
    omega

theorem cost_init (n : Nat) : cost (List.replicate n (.recv : Pc α)) = n := by
  induction n with
  | zero => rfl
  | succ n ih => simp [List.replicate_succ, cost, Pc.cost, ih]; omega

theorem Transition.pending_lt (h : Transition bodies s s') : pending s' < pending s := by
  cases h with
  | @enter item rest body out hsrc h₀ =>
    have hc := cost_set (.next out) h₀
    have hle := Pc.cost_next_le out (s.stages.length - (0 + 1))
    have hpos := (List.getElem?_eq_some_iff.mp h₀).1
    simp only [pending, hsrc, List.length_set, List.length_cons, Pc.cost_recv, Nat.mul_succ]
      at hc hle ⊢
    omega
  | @hand k item body out hk hk₁ =>
    have hc₁ := cost_set .recv hk
    have hk₁' : (s.stages.set k .recv)[k + 1]? = some .recv := by
      rwa [List.getElem?_set_ne (by omega)]
    have hc₂ := cost_set (.next out) hk₁'
    have hle := Pc.cost_next_le out (s.stages.length - (k + 1 + 1))
    have hlt := (List.getElem?_eq_some_iff.mp hk₁).1
    simp only [pending, List.length_set, Pc.cost_recv, Pc.cost_send] at hc₁ hc₂ hle ⊢
    omega
  | collectSource hnil hsrc => simp [pending, hnil, hsrc]
  | collect hk hk₁ =>
    have hc := cost_set .recv hk
    simp only [pending, List.length_set, Pc.cost_recv, Pc.cost_send, ← hk₁, Nat.sub_self] at hc ⊢
    cases s.finished <;> simp at * <;> omega
  | closeSource => simp_all [pending]
  | exit hk =>
    have hc := cost_set .done hk
    simp only [pending, List.length_set, Pc.cost_recv, Pc.cost_done] at hc ⊢
    omega
  | exitMain hfin => simp_all [pending]

theorem pending_init (n : Nat) (input : List α) :
    pending (init n input) = (n + 1) * input.length + n + 2 := by
  simp [pending, PipelineDemo.init, cost_init]
  omega

/-! ## Runs -/

theorem run_cons (m : Move) (moves : List Move) :
    run bodies s (m :: moves) = (step bodies s m).bind fun s₁ => run bodies s₁ moves := rfl

theorem Inv.run (hi : Inv bodies input s) (moves : List Move) (h : run bodies s moves = some s') :
    Inv bodies input s' ∧ moves.length + pending s' ≤ pending s := by
  induction moves generalizing s with
  | nil =>
    obtain rfl : s = s' := Option.some.inj h
    exact ⟨hi, by simp⟩
  | cons m moves ih =>
    rw [run_cons] at h
    obtain ⟨s₁, h₁, h⟩ := Option.bind_eq_some.mp h
    have ht := step_transition h₁
    obtain ⟨hi', hle⟩ := ih (hi.step ht) h
    have := ht.pending_lt
    exact ⟨hi', by simp only [List.length_cons]; omega⟩

theorem exists_final (bodies : List (α -> Option (Option α))) :
    forall (n : Nat) (s : State α), pending s ≤ n ->
      exists moves s', run bodies s moves = some s' ∧ Final bodies s'
  | n, s, hn => by
    by_cases hf : Final bodies s
    · exact ⟨[], s, rfl, hf⟩
    · obtain ⟨m, hm⟩ := not_forall.mp hf
      obtain ⟨s₁, h₁⟩ := Option.ne_none_iff_exists'.mp hm
      have hlt := (step_transition h₁).pending_lt
      obtain ⟨moves, s', hrun, hfin⟩ := exists_final bodies (n - 1) s₁ (by omega)
      exact ⟨m :: moves, s', by rw [run_cons, h₁]; exact hrun, hfin⟩

/-- Over every run of the pipeline, `main` holds a prefix of what the stages
make of the input, in order, and holds all of it once it has left its loop.
A run is at most `(stages + 1) * items + stages + 2` moves long. -/
theorem run_collects (bodies : List (α -> Option (Option α))) (input : List α)
    (moves : List Move) (s : State α) (h : run bodies (init bodies.length input) moves = some s) :
    moves.length ≤ (bodies.length + 1) * input.length + bodies.length + 2 ∧
      s.results <+: process bodies input ∧ (s.finished = true -> s.results = process bodies input) := by
  obtain ⟨hi, hlen⟩ := Inv.init.run moves h
  rw [pending_init] at hlen
  exact ⟨by omega, ⟨_, hi.flow⟩, hi.complete⟩

theorem run_collects_evens :
    exists s, run [fun n : Nat => some (if n % 2 = 0 then some n else none)] (init 1 [1, 2, 3])
      [.pass 0, .pass 0, .pass 1] = some s ∧
      [Move.pass 0, .pass 0, .pass 1].length ≤ (1 + 1) * [1, 2, 3].length + 1 + 2 ∧
      s.results <+: process [fun n : Nat => some (if n % 2 = 0 then some n else none)] [1, 2, 3] ∧
      (s.finished = true ->
        s.results = process [fun n : Nat => some (if n % 2 = 0 then some n else none)] [1, 2, 3]) :=
  ⟨_, rfl, run_collects [fun n : Nat => some (if n % 2 = 0 then some n else none)] [1, 2, 3]
    [.pass 0, .pass 0, .pass 1] _ rfl⟩

end PipelineDemo
