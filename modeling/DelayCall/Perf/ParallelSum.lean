import Mathlib.Data.BitVec
import Mathlib.Data.List.ReduceOption
import Mathlib.Algebra.BigOperators.Group.List

/-!
# The serial and the parallel CPU task

`cpuIntensiveTask` (`concurrency/pipeline/main.go`) adds `v * i` to `sum` for
every element `v` of the data and every `i < 1000`.  `cpuIntensiveTaskParallel`
cuts the data into `runtime.NumCPU()` chunks.  Each worker goroutine sums its
chunk with the same loop and sends the partial sum on a channel buffered for
all of them.  `main` adds the partial sums up in the order they arrive.  Go's
`int` is 64 bits wide and wraps, so values are `BitVec 64`.

The workers share nothing but the channel, so a worker's whole loop is one
step.  A run is any interleaving of the workers' sends and `main`'s receives.
The result is the serial sum on every run, and every run ends.
-/

namespace Perf

/-- The loop both tasks run: `for _, v := range data { for i := 0; i < 1000;
i++ { sum += v * i } }`, from `sum := 0`. -/
def sumLoop (data : List (BitVec 64)) : BitVec 64 :=
  data.foldl (fun sum v => (List.range 1000).foldl (fun sum i => sum + v * BitVec.ofNat 64 i) sum) 0

/-- `cpuIntensiveTask`. -/
def cpuIntensiveTask (data : List (BitVec 64)) : BitVec 64 := sumLoop data

/-- `data[start:stop]`; `none` is the panic of a slice out of range. -/
def slice (data : List (BitVec 64)) (start stop : Nat) : Option (List (BitVec 64)) :=
  if start ≤ stop ∧ stop ≤ data.length then some ((data.take stop).drop start) else none

/-- The chunk `main` hands to worker `i`: `chunkSize` elements from
`i * chunkSize`, and the rest of the data for the last worker. -/
def chunk (data : List (BitVec 64)) (numWorkers i : Nat) : Option (List (BitVec 64)) :=
  let chunkSize := data.length / numWorkers
  let start := i * chunkSize
  let stop := if i = numWorkers - 1 then data.length else start + chunkSize
  slice data start stop

/-- The loop of `main` that starts the workers, giving each its chunk. -/
def launch (data : List (BitVec 64)) (numWorkers : Nat) : Option (List (List (BitVec 64))) :=
  (List.range numWorkers).mapM (chunk data numWorkers)

/-- After the workers are started: each worker still holds its partial sum
until it sends it, `results` holds the sums sent and not yet received, and
`main` is at round `i` of its receiving loop. -/
structure State where
  workers : List (Option (BitVec 64))
  results : List (BitVec 64)
  i : Nat
  totalSum : BitVec 64

/-- The workers have their partial sums; nothing is sent yet. -/
def init (chunks : List (List (BitVec 64))) : State :=
  ⟨chunks.map fun c => some (sumLoop c), [], 0, 0⟩

inductive Move where
  | send (w : Nat)
  | recv

/-- One move: worker `w` runs `results <- sum`, which blocks while the buffer
of `numWorkers` is full; `main` runs `totalSum += <-results`, which blocks
while it is empty, for `i < numWorkers`. -/
def step (numWorkers : Nat) (s : State) : Move -> Option State
  | .send w =>
    match s.workers[w]? with
    | some (some sum) =>
      if s.results.length < numWorkers then
        some { s with workers := s.workers.set w none, results := s.results ++ [sum] }
      else none
    | _ => none
  | .recv =>
    if s.i < numWorkers then
      match s.results with
      | x :: rest => some { s with results := rest, i := s.i + 1, totalSum := s.totalSum + x }
      | [] => none
    else none

def run (numWorkers : Nat) (s : State) (moves : List Move) : Option State :=
  moves.foldlM (step numWorkers) s

def Final (numWorkers : Nat) (s : State) : Prop := forall m, step numWorkers s m = none

/-!
# The serial sum is additive
-/

theorem foldl_add {α : Type} (f : α -> BitVec 64) : forall (l : List α) (s : BitVec 64),
    l.foldl (fun sum a => sum + f a) s = s + (l.map f).sum
  | [], s => by simp
  | a :: l, s => by simp [foldl_add f l, add_assoc]

def term (v : BitVec 64) : BitVec 64 := ((List.range 1000).map fun i => v * BitVec.ofNat 64 i).sum

theorem sumLoop_eq (data : List (BitVec 64)) : sumLoop data = (data.map term).sum := by
  have : (fun sum v => (List.range 1000).foldl (fun sum i => sum + v * BitVec.ofNat 64 i) sum) =
      fun sum (v : BitVec 64) => sum + term v := by
    funext sum v
    exact foldl_add _ _ _
  rw [sumLoop, this, foldl_add, zero_add]

theorem sumLoop_flatten (chunks : List (List (BitVec 64))) :
    sumLoop chunks.flatten = (chunks.map sumLoop).sum := by
  rw [show sumLoop = fun c => (c.map term).sum from funext sumLoop_eq]
  simp [List.map_flatten, List.sum_flatten, Function.comp_def]

/-!
# The chunks cover the data
-/

section Launch

variable {data : List (BitVec 64)} {numWorkers : Nat}

theorem mapM_some {α β : Type} {f : α -> Option β} (g : α -> β) :
    forall {l : List α}, (∀ a ∈ l, f a = some (g a)) -> l.mapM f = some (l.map g)
  | [], _ => rfl
  | a :: l, h => by
    rw [List.mapM_cons, h a (List.mem_cons_self a l),
      mapM_some g fun b hb => h b (List.mem_cons_of_mem a hb)]
    rfl

/-- Where chunk `i` starts: `i * chunkSize`, and the end of the data after the
last chunk. -/
def cut (data : List (BitVec 64)) (numWorkers i : Nat) : Nat :=
  if i < numWorkers then i * (data.length / numWorkers) else data.length

theorem cut_le (i : Nat) : cut data numWorkers i ≤ data.length := by
  unfold cut
  split
  · calc i * (data.length / numWorkers) ≤ numWorkers * (data.length / numWorkers) :=
          Nat.mul_le_mul_right _ (by omega)
      _ ≤ data.length := Nat.mul_div_le data.length numWorkers
  · exact le_refl _

theorem cut_mono (i : Nat) : cut data numWorkers i ≤ cut data numWorkers (i + 1) := by
  by_cases h : i + 1 < numWorkers
  · simp only [cut, h, Nat.lt_of_succ_lt h, if_true]
    exact Nat.mul_le_mul_right _ (Nat.le_succ i)
  · rw [show cut data numWorkers (i + 1) = data.length from if_neg h]
    exact cut_le i

theorem chunk_eq {i : Nat} (hi : i < numWorkers) :
    chunk data numWorkers i =
      some ((data.take (cut data numWorkers (i + 1))).drop (cut data numWorkers i)) := by
  have hstart : i * (data.length / numWorkers) = cut data numWorkers i := by simp [cut, hi]
  have hstop : (if i = numWorkers - 1 then data.length
      else cut data numWorkers i + data.length / numWorkers) =
      cut data numWorkers (i + 1) := by
    rw [← hstart]
    unfold cut
    split <;> split
    · omega
    · rfl
    · rw [Nat.succ_mul]
    · omega
  simp only [chunk, slice, hstart, hstop]
  rw [if_pos ⟨cut_mono i, cut_le (i + 1)⟩]

theorem launch_eq : launch data numWorkers = some ((List.range numWorkers).map fun i =>
    (data.take (cut data numWorkers (i + 1))).drop (cut data numWorkers i)) :=
  mapM_some _ fun _ hi => chunk_eq (List.mem_range.1 hi)

theorem flatten_chunks (hnw : 0 < numWorkers) : forall k, k ≤ numWorkers ->
    ((List.range k).map fun i =>
      (data.take (cut data numWorkers (i + 1))).drop (cut data numWorkers i)).flatten =
      data.take (cut data numWorkers k)
  | 0, _ => by simp [cut, hnw]
  | k + 1, hk => by
    rw [List.range_succ, List.map_append, List.flatten_append, flatten_chunks hnw k (by omega)]
    have hmono : cut data numWorkers k ≤ cut data numWorkers (k + 1) := cut_mono k
    have htake : data.take (cut data numWorkers k) =
        (data.take (cut data numWorkers (k + 1))).take (cut data numWorkers k) := by
      rw [List.take_take, min_eq_left hmono]
    rw [htake]
    simp

theorem launch_chunks (hnw : 0 < numWorkers) :
    exists chunks, launch data numWorkers = some chunks ∧ chunks.flatten = data ∧
      chunks.length = numWorkers := by
  refine ⟨_, launch_eq, ?_, by simp⟩
  rw [flatten_chunks hnw numWorkers le_rfl, cut, if_neg (lt_irrefl _), List.take_length]

end Launch

/-!
# Every interleaving adds up all partial sums
-/

theorem reduceOption_set_none {α : Type} {x : α} :
    forall {l : List (Option α)} {w : Nat}, l[w]? = some (some x) ->
      List.Perm l.reduceOption (x :: (l.set w none).reduceOption)
  | a :: l, 0, h => by
    simp only [List.getElem?_cons_zero, Option.some.injEq] at h
    subst h
    simp [List.reduceOption_cons_of_some, List.reduceOption_cons_of_none]
  | none :: l, w + 1, h => by
    rw [List.getElem?_cons_succ] at h
    simpa [List.reduceOption_cons_of_none] using reduceOption_set_none h
  | some y :: l, w + 1, h => by
    rw [List.getElem?_cons_succ] at h
    simp only [List.set_cons_succ, List.reduceOption_cons_of_some]
    exact ((reduceOption_set_none h).cons y).trans (List.Perm.swap x y _)

section Run

variable {numWorkers : Nat} {sums : List (BitVec 64)} {s s' : State}

/-- The partial sums are split between those `main` has received, those in
the channel and those the workers still hold. -/
structure Inv (numWorkers : Nat) (sums : List (BitVec 64)) (s : State) : Prop where
  split : exists got, List.Perm (got ++ s.results ++ s.workers.reduceOption) sums ∧
    s.totalSum = got.sum ∧ got.length = s.i
  count : sums.length = numWorkers

theorem reduceOption_init (chunks : List (List (BitVec 64))) :
    (init chunks).workers.reduceOption = chunks.map sumLoop := by
  induction chunks with
  | nil => rfl
  | cons c chunks ih => simpa [Perf.init, List.reduceOption_cons_of_some] using ih

theorem Inv.init (chunks : List (List (BitVec 64))) (h : chunks.length = numWorkers) :
    Inv numWorkers (chunks.map sumLoop) (init chunks) :=
  ⟨⟨[], by rw [reduceOption_init]; exact List.Perm.refl _, rfl, rfl⟩, by simp [h]⟩

theorem Inv.step (h : Inv numWorkers sums s) {m : Move} (hs : step numWorkers s m = some s') :
    Inv numWorkers sums s' := by
  obtain ⟨⟨got, hperm, htot, hlen⟩, hcount⟩ := h
  refine ⟨?_, hcount⟩
  cases m with
  | send w =>
    simp only [Perf.step] at hs
    split at hs
    · rename_i x hw
      split at hs
      · cases hs
        refine ⟨got, ?_, htot, hlen⟩
        refine List.Perm.trans ?_ hperm
        simpa using (reduceOption_set_none hw).symm.append_left (got ++ s.results)
      · cases hs
    · cases hs
  | recv =>
    simp only [Perf.step] at hs
    split at hs
    · split at hs
      · rename_i x rest hres
        cases hs
        refine ⟨got ++ [x], by simpa [hres] using hperm, by simp [htot], by simp [hlen]⟩
      · cases hs
    · cases hs

/-- The number of moves left: two for a worker that has not sent, one for a
sum in the channel. -/
def pending (s : State) : Nat := 2 * s.workers.reduceOption.length + s.results.length

theorem pending_step {m : Move} (hs : step numWorkers s m = some s') :
    pending s' + 1 = pending s := by
  cases m with
  | send w =>
    simp only [Perf.step] at hs
    split at hs
    · rename_i x hw
      split at hs
      · cases hs
        have := (reduceOption_set_none hw).length_eq
        simp only [pending, List.length_append, List.length_cons, List.length_nil] at this ⊢
        omega
      · cases hs
    · cases hs
  | recv =>
    simp only [Perf.step] at hs
    split at hs
    · split at hs
      · rename_i x rest hres
        cases hs
        simp [pending, hres]
        omega
      · cases hs
    · cases hs

theorem Inv.run (h : Inv numWorkers sums s) (moves : List Move)
    (hrun : run numWorkers s moves = some s') :
    Inv numWorkers sums s' ∧ pending s' + moves.length = pending s := by
  induction moves generalizing s with
  | nil =>
    cases hrun
    exact ⟨h, rfl⟩
  | cons m moves ih =>
    simp only [Perf.run, List.foldlM_cons] at hrun
    cases hm : Perf.step numWorkers s m with
    | none => simp [hm] at hrun
    | some s₁ =>
      rw [hm] at hrun
      obtain ⟨h', hp⟩ := ih (h.step hm) hrun
      have := pending_step hm
      exact ⟨h', by simp only [List.length_cons]; omega⟩

theorem Inv.done (h : Inv numWorkers sums s) (hi : s.i = numWorkers) :
    s.results = [] ∧ s.workers.reduceOption = [] ∧ s.totalSum = sums.sum := by
  obtain ⟨⟨got, hperm, htot, hlen⟩, hcount⟩ := h
  have hl := hperm.length_eq
  simp only [List.length_append] at hl
  have hres : s.results = [] := List.eq_nil_of_length_eq_zero (by omega)
  have hw : s.workers.reduceOption = [] := List.eq_nil_of_length_eq_zero (by omega)
  rw [hres, hw, List.append_nil, List.append_nil] at hperm
  exact ⟨hres, hw, htot.trans hperm.sum_eq⟩

theorem Inv.final (h : Inv numWorkers sums s) (hf : Final numWorkers s) : s.i = numWorkers := by
  obtain ⟨⟨got, hperm, -, hlen⟩, hcount⟩ := h
  have hl := hperm.length_eq
  simp only [List.length_append] at hl
  have hw : s.workers.reduceOption = [] := by
    rcases hW : s.workers.reduceOption with _ | ⟨x, W⟩
    · rfl
    · have hx : some x ∈ s.workers := List.reduceOption_mem_iff.1 (by simp [hW])
      obtain ⟨w, hw⟩ := List.mem_iff_getElem?.1 hx
      have := hf (.send w)
      simp only [Perf.step, hw] at this
      rw [hW, List.length_cons] at hl
      split at this
      · cases this
      · omega
  rw [hw, List.length_nil] at hl
  by_contra hne
  rcases hres : s.results with _ | ⟨x, rest⟩
  · rw [hres, List.length_nil] at hl
    omega
  · have := hf .recv
    simp only [Perf.step, hres] at this
    rw [hres, List.length_cons] at hl
    split at this
    · cases this
    · omega

end Run

/-- However the workers' sends and `main`'s receives interleave,
`cpuIntensiveTaskParallel` returns what `cpuIntensiveTask` returns.  `main`
starts its workers without a slice panic, and every run stops within
`2 * numWorkers` moves.  A run that can go no further has received all
`numWorkers` partial sums, and then `totalSum` is the serial sum. -/
theorem parallel_eq_serial {numWorkers : Nat} (hnw : 0 < numWorkers) (data : List (BitVec 64)) :
    exists chunks, launch data numWorkers = some chunks ∧ chunks.flatten = data ∧
      forall moves s, run numWorkers (init chunks) moves = some s ->
        moves.length ≤ 2 * numWorkers ∧
        (Final numWorkers s -> s.i = numWorkers ∧ s.totalSum = cpuIntensiveTask data) := by
  obtain ⟨chunks, hl, hflat, hlen⟩ : exists chunks, launch data numWorkers = some chunks ∧
      chunks.flatten = data ∧ chunks.length = numWorkers := launch_chunks hnw
  refine ⟨chunks, hl, hflat, fun moves s hrun => ?_⟩
  obtain ⟨hinv, hpend⟩ := (Inv.init chunks hlen).run moves hrun
  have h0 : pending (init chunks) = 2 * numWorkers := by
    rw [pending, reduceOption_init]
    simp [Perf.init, hlen]
  refine ⟨by omega, fun hf => ?_⟩
  have hi := hinv.final hf
  rw [(hinv.done hi).2.2, ← sumLoop_flatten, hflat]
  exact ⟨hi, rfl⟩

theorem parallel_eq_serial_four_workers : 0 < 4 ∧ exists chunks,
    launch [1, 2, 3, 4, 5, 6, 7, 8, 9, 10] 4 = some chunks ∧
    chunks.flatten = [1, 2, 3, 4, 5, 6, 7, 8, 9, 10] ∧
    forall moves s, run 4 (init chunks) moves = some s -> moves.length ≤ 2 * 4 ∧
      (Final 4 s -> s.i = 4 ∧ s.totalSum = cpuIntensiveTask [1, 2, 3, 4, 5, 6, 7, 8, 9, 10]) :=
  ⟨by decide, parallel_eq_serial (by decide) _⟩

end Perf
