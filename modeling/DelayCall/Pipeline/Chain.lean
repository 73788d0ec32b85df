import Mathlib.Data.List.Basic

/-!
# The pipeline's goroutines and channels

`Pipeline.Execute` (`concurrency/pipeline/main.go`) chains its stages.
`generateData` writes channel `0`, stage `k` reads channel `k` and writes
channel `k + 1`, and `main` ranges over the last channel.  Every channel is
unbuffered, so an item moves only when its writer and its reader meet.

The four stages of `main` all have one shape: `for item := range input`, some
work on the item, `output <- item`, and a deferred `close(output)`.  So a stage
is given by its body, the work done on one item.  The body returns `none` when
it panics, `some none` when it drops the item (`validationStage` on an empty
value), and `some (some item)` when it sends `item`.

The goroutines interleave in every order.  Over every run, `main` holds a
prefix of the items processed in input order, and the run is at most a fixed
number of moves long.  A state in which no goroutine can move is one where
`main` has left its loop holding every item, and such a state is reached.
-/

namespace PipelineDemo

variable {α : Type}

/-- Where a stage goroutine is: at the head of `for item := range input`,
blocked on `output <- item`, or returned after its deferred `close(output)`. -/
inductive Pc (α : Type) where
  | recv
  | send (item : α)
  | done

namespace Pc

/-- Where a stage goes once its body has made `out` of the item it received. -/
def next : Option α -> Pc α
  | some item => .send item
  | none => .recv

/-- The item a stage holds. -/
def held : Pc α -> List α
  | .send item => [item]
  | _ => []

@[simp] theorem held_recv : (recv : Pc α).held = [] := rfl

@[simp] theorem held_done : (done : Pc α).held = [] := rfl

@[simp] theorem held_send (item : α) : (send item).held = [item] := rfl

@[simp] theorem held_next (out : Option α) : (next out).held = out.toList := by
  cases out <;> rfl

theorem next_ne_done (out : Option α) : next out ≠ done := by
  cases out <;> nofun

end Pc

/-- The goroutines of the pipeline between two moves. -/
structure State (α : Type) where
  /-- The items `generateData` has still to send. -/
  source : List α
  /-- `generateData` has returned and closed its output. -/
  sourceClosed : Bool
  /-- The stage goroutines, in the order `Execute` chains them. -/
  stages : List (Pc α)
  /-- `main`'s `results`. -/
  results : List α
  /-- `main` has left `for result := range output`. -/
  finished : Bool

/-- The pipeline once started: every stage waits for its first item. -/
def init (stages : Nat) (input : List α) : State α :=
  ⟨input, false, List.replicate stages .recv, [], false⟩

/-- `Pipeline`, with each stage given by its body. -/
structure Pipeline (α : Type) where
  stages : List (α -> Option (Option α))

/-- `NewPipeline`. -/
def newPipeline : Pipeline α := ⟨[]⟩

/-- `AddStage`. -/
def Pipeline.addStage (p : Pipeline α) (stage : α -> Option (Option α)) : Pipeline α :=
  ⟨p.stages ++ [stage]⟩

/-- `Execute`: every stage is started on the channel the one before it writes. -/
def Pipeline.execute (p : Pipeline α) (input : List α) : State α := init p.stages.length input

namespace State

/-- The item the writer of channel `k` is blocked sending: `generateData`'s
next item for `k = 0`, stage `k - 1`'s otherwise. -/
def offer (s : State α) : Nat -> Option α
  | 0 => s.source.head?
  | k + 1 =>
    match s.stages[k]? with
    | some (.send item) => some item
    | _ => none

def closed (s : State α) : Nat -> Bool
  | 0 => s.sourceClosed
  | k + 1 =>
    match s.stages[k]? with
    | some .done => true
    | _ => false

def sent (s : State α) : Nat -> State α
  | 0 => { s with source := s.source.tail }
  | k + 1 => { s with stages := s.stages.set k .recv }

/-- The reader of channel `k` takes `item`: stage `k` runs its body on it, or
`main` appends it to `results`. -/
def receive (bodies : List (α -> Option (Option α))) (s : State α) (k : Nat) (item : α) :
    Option (State α) :=
  match s.stages[k]?, bodies[k]? with
  | some .recv, some body =>
    (body item).map fun out => { s with stages := s.stages.set k (Pc.next out) }
  | none, _ =>
    if k = s.stages.length ∧ s.finished = false then
      some { s with results := s.results ++ [item] }
    else none
  | _, _ => none

end State

/-- A move of one goroutine, or of the two that meet on a channel. -/
inductive Move where
  /-- The writer and the reader of channel `k` meet. -/
  | pass (k : Nat)
  /-- `generateData` returns and closes its output. -/
  | closeSource
  /-- Stage `k` finds its input closed, returns and closes its output. -/
  | exit (k : Nat)
  /-- `main` finds the last channel closed and leaves its loop. -/
  | exitMain

def step (bodies : List (α -> Option (Option α))) (s : State α) : Move -> Option (State α)
  | .pass k => (s.offer k).bind fun item => (s.sent k).receive bodies k item
  | .closeSource =>
    if s.source.isEmpty ∧ s.sourceClosed = false then some { s with sourceClosed := true }
    else none
  | .exit k =>
    match s.stages[k]? with
    | some .recv => if s.closed k then some { s with stages := s.stages.set k .done } else none
    | _ => none
  | .exitMain =>
    if s.finished = false ∧ s.closed s.stages.length then some { s with finished := true }
    else none

def run (bodies : List (α -> Option (Option α))) (s : State α) (moves : List Move) :
    Option (State α) :=
  moves.foldlM (step bodies) s

def Final (bodies : List (α -> Option (Option α))) (s : State α) : Prop :=
  forall m, step bodies s m = none

/-! ## What the chain computes -/

/-- The item `body` passes on, if it passes one. -/
def forward (body : α -> Option (Option α)) (item : α) : Option α := (body item).join

/-- The items that come out of the stages `bodies` fed `input`, in order. -/
def process (bodies : List (α -> Option (Option α))) (input : List α) : List α :=
  bodies.foldl (fun items body => items.filterMap (forward body)) input

/-- What is still to come out of the stages `pcs`, running `bodies`, while `up`
is still to come in: a stage's held item goes before what it makes of the items
behind it. -/
def drain : List (α -> Option (Option α)) -> List (Pc α) -> List α -> List α
  | body :: bodies, pc :: pcs, up => drain bodies pcs (pc.held ++ up.filterMap (forward body))
  | _, _, up => up

variable {bodies : List (α -> Option (Option α))}

@[simp] theorem drain_nil_left (pcs : List (Pc α)) (up : List α) :
    drain ([] : List (α -> Option (Option α))) pcs up = up := rfl

@[simp] theorem drain_nil_right (bodies : List (α -> Option (Option α))) (up : List α) :
    drain bodies [] up = up := by
  cases bodies <;> rfl

@[simp] theorem drain_cons (body : α -> Option (Option α)) (pc : Pc α) (pcs : List (Pc α))
    (up : List α) :
    drain (body :: bodies) (pc :: pcs) up =
      drain bodies pcs (pc.held ++ up.filterMap (forward body)) := rfl

theorem drain_init (bodies : List (α -> Option (Option α))) (input : List α) :
    drain bodies (List.replicate bodies.length .recv) input = process bodies input := by
  induction bodies generalizing input with
  | nil => rfl
  | cons body bodies ih => simp [List.replicate_succ, ih, process]

theorem drain_enter : forall {bodies : List (α -> Option (Option α))} {pcs : List (Pc α)}
    {item : α} {body} {out : Option α} (rest : List α),
    pcs[0]? = some .recv -> bodies[0]? = some body -> body item = some out ->
    drain bodies (pcs.set 0 (Pc.next out)) rest = drain bodies pcs (item :: rest)
  | [], _, _, _, _, _, _, hb, _ => by simp at hb
  | _ :: _, [], _, _, _, _, h₀, _, _ => by simp at h₀
  | _ :: _, _ :: _, item, body, out, rest, h₀, hb, ho => by
    simp only [List.getElem?_cons_zero, Option.some.injEq] at h₀ hb
    subst h₀ hb
    cases out <;> simp [forward, ho]

theorem drain_hand : forall {bodies : List (α -> Option (Option α))} {pcs : List (Pc α)}
    {k : Nat} {item : α} {body} {out : Option α} (up : List α),
    pcs[k]? = some (.send item) -> pcs[k + 1]? = some .recv -> bodies[k + 1]? = some body ->
    body item = some out ->
    drain bodies ((pcs.set k .recv).set (k + 1) (Pc.next out)) up = drain bodies pcs up
  | _ :: body' :: bodies, _ :: _ :: pcs, 0, item, body, out, up, h₀, h₁, hb, ho => by
    simp only [List.getElem?_cons_zero, List.getElem?_cons_succ, Option.some.injEq] at h₀ h₁ hb
    subst h₀ h₁ hb
    cases out <;> simp [forward, ho]
  | _ :: bodies, _ :: pcs, k + 1, item, body, out, up, h₀, h₁, hb, ho => by
    simp only [List.getElem?_cons_succ] at h₀ h₁ hb
    simp only [List.set_cons_succ, drain_cons]
    exact drain_hand _ h₀ h₁ hb ho

theorem drain_collect : forall {bodies : List (α -> Option (Option α))} {pcs : List (Pc α)}
    {k : Nat} {item : α} (up : List α),
    pcs[k]? = some (.send item) -> k + 1 = pcs.length -> pcs.length ≤ bodies.length ->
    drain bodies pcs up = item :: drain bodies (pcs.set k .recv) up
  | [], _, _, _, _, _, hk, hlen => by simp only [List.length_nil, Nat.le_zero] at hlen; omega
  | _ :: _, [], _, _, _, h₀, _, _ => by simp at h₀
  | _ :: _, [_], 0, item, up, h₀, _, _ => by
    simp only [List.getElem?_cons_zero, Option.some.injEq] at h₀
    subst h₀
    simp
  | _ :: _, _ :: _ :: _, 0, _, _, _, hk, _ => by simp at hk
  | _ :: bodies, _ :: pcs, k + 1, item, up, h₀, hk, hlen => by
    simp only [List.getElem?_cons_succ, List.length_cons] at h₀ hk hlen
    simp only [List.set_cons_succ, drain_cons]
    exact drain_collect _ h₀ (by omega) (by omega)

theorem drain_set_of_held : forall {bodies : List (α -> Option (Option α))} {pcs : List (Pc α)}
    {k : Nat} {p q : Pc α} (up : List α),
    pcs[k]? = some p -> q.held = p.held -> drain bodies (pcs.set k q) up = drain bodies pcs up
  | [], _, _, _, _, _, _, _ => rfl
  | _ :: _, [], _, _, _, _, _, _ => rfl
  | _ :: _, _ :: _, 0, p, q, up, h, hq => by
    simp only [List.getElem?_cons_zero, Option.some.injEq] at h
    subst h
    simp [hq]
  | _ :: _, _ :: _, k + 1, p, q, up, h, hq => by
    simp only [List.getElem?_cons_succ] at h
    simp only [List.set_cons_succ, drain_cons]
    exact drain_set_of_held _ h hq

theorem drain_eq_nil : forall {bodies : List (α -> Option (Option α))} {pcs : List (Pc α)},
    (∀ pc ∈ pcs, pc.held = []) -> drain bodies pcs [] = []
  | [], _, _ => rfl
  | _ :: _, [], _ => rfl
  | _ :: _, _ :: _, h => by
    simp only [drain_cons, List.filterMap_nil, List.append_nil, h _ (List.mem_cons_self _ _)]
    exact drain_eq_nil fun pc hpc => h pc (List.mem_cons_of_mem _ hpc)

/-! ## What a move can do -/

/-- The moves the pipeline can make, one constructor per kind. -/
inductive Transition (bodies : List (α -> Option (Option α))) : State α -> State α -> Prop where
  /-- `generateData` hands its next item to the first stage. -/
  | enter {s : State α} {item : α} {rest : List α} {body} {out : Option α} :
      s.source = item :: rest -> s.stages[0]? = some .recv -> bodies[0]? = some body ->
      body item = some out ->
      Transition bodies s { s with source := rest, stages := s.stages.set 0 (Pc.next out) }
  /-- Stage `k` hands its item to stage `k + 1`. -/
  | hand {s : State α} {k : Nat} {item : α} {body} {out : Option α} :
      s.stages[k]? = some (.send item) -> s.stages[k + 1]? = some .recv ->
      bodies[k + 1]? = some body -> body item = some out ->
      Transition bodies s { s with stages := (s.stages.set k .recv).set (k + 1) (Pc.next out) }
  /-- With no stages, `generateData` hands its next item to `main`. -/
  | collectSource {s : State α} {item : α} {rest : List α} :
      s.stages = [] -> s.source = item :: rest -> s.finished = false ->
      Transition bodies s { s with source := rest, results := s.results ++ [item] }
  /-- The last stage hands its item to `main`. -/
  | collect {s : State α} {k : Nat} {item : α} :
      s.stages[k]? = some (.send item) -> k + 1 = s.stages.length -> s.finished = false ->
      Transition bodies s { s with stages := s.stages.set k .recv, results := s.results ++ [item] }
  | closeSource {s : State α} :
      s.source = [] -> s.sourceClosed = false -> Transition bodies s { s with sourceClosed := true }
  | exit {s : State α} {k : Nat} :
      s.stages[k]? = some .recv -> s.closed k = true ->
      Transition bodies s { s with stages := s.stages.set k .done }
  | exitMain {s : State α} :
      s.finished = false -> s.closed s.stages.length = true ->
      Transition bodies s { s with finished := true }

variable {s s' : State α}

theorem closed_succ {k : Nat} : s.closed (k + 1) = true ↔ s.stages[k]? = some .done := by
  simp only [State.closed]
  split <;> simp_all

theorem step_transition {m : Move} (h : step bodies s m = some s') : Transition bodies s s' := by
  cases m with
  | pass k =>
    obtain ⟨item, hoffer, hrecv⟩ := Option.bind_eq_some.mp h
    cases k with
    | zero =>
      obtain ⟨rest, hsrc⟩ : exists rest, s.source = item :: rest := by
        cases hs : s.source <;> simp_all [State.offer]
      simp only [State.sent, State.receive, hsrc, List.tail_cons] at hrecv
      split at hrecv
      · obtain ⟨out, hout, rfl⟩ := Option.map_eq_some'.mp hrecv
        exact .enter hsrc ‹_› ‹_› hout
      · split at hrecv
        · rename_i hc
          cases hrecv
          exact .collectSource (List.length_eq_zero.mp hc.1.symm) hsrc hc.2
        · cases hrecv
      · cases hrecv
    | succ k =>
      have hk : s.stages[k]? = some (.send item) := by
        simp only [State.offer] at hoffer
        split at hoffer <;> simp_all
      have hne : (s.stages.set k .recv)[k + 1]? = s.stages[k + 1]? :=
        List.getElem?_set_ne (by omega)
      simp only [State.sent, State.receive, hne, List.length_set] at hrecv
      split at hrecv
      · obtain ⟨out, hout, rfl⟩ := Option.map_eq_some'.mp hrecv
        exact .hand hk ‹_› ‹_› hout
      · split at hrecv
        · rename_i hc
          cases hrecv
          exact .collect hk hc.1 hc.2
        · cases hrecv
      · cases hrecv
  | closeSource =>
    simp only [step] at h
    split at h
    · rename_i hc
      cases h
      exact .closeSource (List.isEmpty_iff.mp hc.1) hc.2
    · cases h
  | exit k =>
    simp only [step] at h
    split at h
    · split at h
      · cases h
        exact .exit ‹_› ‹_›
      · cases h
    · cases h
  | exitMain =>
    simp only [step] at h
    split at h
    · rename_i hc
      cases h
      exact .exitMain hc.1 hc.2
    · cases h

theorem Transition.step_eq (h : Transition bodies s s') : exists m, step bodies s m = some s' := by
  cases h with
  | enter hsrc h₀ hb ho =>
    exact ⟨.pass 0, by simp [step, State.offer, State.sent, State.receive, hsrc, h₀, hb, ho]⟩
  | @hand k _ _ _ hk hk₁ hb ho =>
    refine ⟨.pass (k + 1), ?_⟩
    simp [step, State.offer, State.sent, State.receive, hk, List.getElem?_set_ne, hk₁, hb, ho]
  | collectSource hnil hsrc hfin =>
    exact ⟨.pass 0, by simp [step, State.offer, State.sent, State.receive, hnil, hsrc, hfin]⟩
  | @collect k _ hk hlen hfin =>
    refine ⟨.pass (k + 1), ?_⟩
    have hnone : (s.stages.set k .recv)[k + 1]? = none := by simp [← hlen]
    simp [step, State.offer, State.sent, State.receive, hk, hnone, ← hlen, hfin]
  | closeSource hsrc hc => exact ⟨.closeSource, by simp [step, hsrc, hc]⟩
  | @exit k hk hc => exact ⟨.exit k, by simp [step, hk, hc]⟩
  | exitMain hfin hc => exact ⟨.exitMain, by simp [step, hfin, hc]⟩

end PipelineDemo
