import Mathlib.Data.List.Basic

/-!
# `EventDispatcher`, with its slices and their backing arrays

`EventDispatcher` (`interface/main.go`) maps each event type to a slice of
observers and guards the map with a `sync.RWMutex`.  A Go slice is a header:
a backing array, a length and a capacity.  `append` writes into the backing
array when it has room past the length.  So both writers write into arrays
that other slices may share.  `Subscribe`'s `append(observers, o)` does so
when the slice has spare capacity.  `Unsubscribe`'s
`append(observers[:i], observers[i+1:]...)` always does, moving the elements
after `i` down by one in place.

`Notify` copies the header under the read lock, releases the lock, and then
ranges over the backing array.  The writers' bodies hold the write lock, and
`Notify`'s copy of the header holds the read lock, so each is one move here.
Every iteration of `Notify`'s range is a move of its own.  A writer's write
into the range of a `Notify` that is still ranging is a data race, and
`raced` records it, as Go's race detector reports one; `racedCalls` records
which `Notify` calls the write races with.  `Unsubscribe` moves
its elements as one move here.  A `Notify` that reads between those writes
sees a partly moved array; such runs are racy, and none of the results
below that hold for every run is about a racy one.

The map is an association list, newest entry first.  The heap is the list
of backing arrays.  A cell holds an `Option Observer`, where `none` is the
nil interface that a new array's spare cells start with.  An `Observer`'s
`Update` only prints, so the model records which observers a `Notify` has
started an `Update` for.
-/

namespace ObserverDemo

/-- An `Observer` value: the object it points to, and what its `GetID()`
returns. -/
structure Observer where
  ptr : Nat
  id : String
  deriving DecidableEq, Repr

/-- The field of an `Event` that the dispatcher reads. -/
structure Event where
  type : String
  deriving DecidableEq, Repr

/-- A slice header.  Every slice the dispatcher stores starts at its array's
first element. -/
structure Slice where
  array : Nat
  len : Nat
  cap : Nat
  deriving DecidableEq, Repr

def Slice.nil : Slice := ⟨0, 0, 0⟩

/-- A `Notify(event)` call: the header it copied, the index its range reads
next, and the observers whose `Update(event)` it has started. -/
structure NotifyCall where
  event : Event
  observers : Slice
  next : Nat
  updated : List Observer
  deriving DecidableEq, Repr

/-- Whether writing cells `lo` to `hi - 1` of array `a` races with the `Notify`
call `n`: `n` still ranges over `a`, and the write meets its header's cells. -/
def NotifyCall.meets (n : NotifyCall) (a lo hi : Nat) : Bool :=
  n.next < n.observers.len && n.observers.array == a && lo < hi && lo < n.observers.len

/-- The dispatcher: the backing arrays, `ed.observers` newest entry first,
the `Notify` calls made so far, whether a data race has happened, and the
indexes of the `Notify` calls a write has raced with. -/
structure EventDispatcher where
  heap : List (List (Option Observer))
  observers : List (String × Slice)
  notifies : List NotifyCall
  raced : Bool
  racedCalls : List Nat
  deriving DecidableEq, Repr

/-- `ed.observers[eventType]`: the slice stored for `eventType`, nil if there
is none. -/
def lookup : List (String × Slice) -> String -> Slice
  | [], _ => .nil
  | (t, s) :: m, eventType => if t = eventType then s else lookup m eventType

@[simp] theorem lookup_cons (m : List (String × Slice)) (t t' : String) (s : Slice) :
    lookup ((t, s) :: m) t' = if t = t' then s else lookup m t' := rfl

/-- `NewEventDispatcher()`. -/
def newEventDispatcher : EventDispatcher := ⟨[], [], [], false, []⟩

/-- The `range` loop of `Unsubscribe`: the index of the first element whose
`GetID()` is `id`. -/
def indexOfID (id : String) : List (Option Observer) -> Option Nat
  | [] => none
  | o :: os => if o.map Observer.id = some id then some 0 else (indexOfID id os).map (· + 1)

theorem indexOfID_lt {key : String} :
    forall {l : List (Option Observer)} {i : Nat}, indexOfID key l = some i -> i < l.length
  | [], _, h => by simp [indexOfID] at h
  | o :: os, i, h => by
    simp only [indexOfID] at h
    split at h
    · cases h
      simp
    · obtain ⟨j, hj, rfl⟩ := Option.map_eq_some'.mp h
      simpa using indexOfID_lt hj

@[simp] theorem indexOfID_cons_some (key : String) (o : Observer) (l : List (Option Observer)) :
    indexOfID key (some o :: l) = if o.id = key then some 0 else (indexOfID key l).map (· + 1) := by
  simp [indexOfID]

theorem indexOfID_map_some {key : String} :
    forall {L : List Observer} {i : Nat}, indexOfID key (L.map some) = some i ->
      (L.map some).eraseIdx i = (L.eraseP fun o => o.id == key).map some
  | [], _, h => by simp [indexOfID] at h
  | o :: L, i, h => by
    by_cases ho : o.id = key
    · simp only [List.map_cons, indexOfID_cons_some, ho, if_true, Option.some.injEq] at h
      subst h
      simp [ho]
    · simp only [List.map_cons, indexOfID_cons_some, ho, if_false] at h
      obtain ⟨j, hj, rfl⟩ := Option.map_eq_some'.mp h
      simp [List.eraseP_cons, ho, indexOfID_map_some hj]

theorem indexOfID_map_none {key : String} :
    forall {L : List Observer}, indexOfID key (L.map some) = none ->
      (L.eraseP fun o => o.id == key) = L
  | [], _ => rfl
  | o :: L, h => by
    by_cases ho : o.id = key
    · simp [ho] at h
    · simp only [List.map_cons, indexOfID_cons_some, ho, if_false, Option.map_eq_none'] at h
      simp [List.eraseP_cons, ho, indexOfID_map_none h]

theorem indexOfID_of_findIdx {key : String} :
    forall {L : List Observer}, L.findIdx (fun o => o.id == key) < L.length ->
      indexOfID key (L.map some) = some (L.findIdx fun o => o.id == key)
  | [], h => by simp at h
  | o :: L, h => by
    by_cases ho : o.id = key
    · simp [List.findIdx_cons, ho]
    · have hb : (o.id == key) = false := by simpa using ho
      have h' : L.findIdx (fun o => o.id == key) < L.length := by
        simpa [List.findIdx_cons, hb] using h
      simp [List.findIdx_cons, hb, ho, indexOfID_of_findIdx h']

/-- `append(observers[:i], observers[i+1:]...)` on the backing array `a` of a
slice of length `len`: the elements after `i` move down by one, and the cells
from `len - 1` on keep what they held. -/
def removeAt (a : List (Option Observer)) (i len : Nat) : List (Option Observer) :=
  a.take i ++ (a.take len).drop (i + 1) ++ a.drop (len - 1)

section removeAt

variable {a : List (Option Observer)} {i len : Nat}

theorem getElem?_removeAt (h : i < len) (hl : len ≤ a.length) (k : Nat) :
    (removeAt a i len)[k]? = if i ≤ k ∧ k + 1 < len then a[k + 1]? else a[k]? := by
  simp only [removeAt, List.getElem?_append, List.length_append, List.length_take,
    List.length_drop, List.getElem?_take, List.getElem?_drop]
  split_ifs <;> first | rfl | omega | (congr 1; omega)

theorem length_removeAt (h : i < len) (hl : len ≤ a.length) :
    (removeAt a i len).length = a.length := by
  simp only [removeAt, List.length_append, List.length_take, List.length_drop]
  omega

theorem take_removeAt (h : i < len) (hl : len ≤ a.length) :
    (removeAt a i len).take (len - 1) = (a.take len).eraseIdx i := by
  apply List.ext_getElem?
  intro k
  simp only [List.getElem?_take, getElem?_removeAt h hl, List.getElem?_eraseIdx]
  split_ifs <;> first | rfl | omega

theorem take_removeAt_of_le {m : Nat} (h : i < len) (hl : len ≤ a.length) (hm : m ≤ i) :
    (removeAt a i len).take m = a.take m := by
  apply List.ext_getElem?
  intro k
  simp only [List.getElem?_take, getElem?_removeAt h hl]
  split_ifs <;> first | rfl | omega

/-- A range of the old length reads the elements `Unsubscribe` leaves, then
the old last element once more. -/
theorem take_removeAt_len (h : i < len) (hl : len ≤ a.length) :
    (removeAt a i len).take len = (a.take len).eraseIdx i ++ a[len - 1]?.toList := by
  obtain ⟨m, rfl⟩ : exists m, len = m + 1 := ⟨len - 1, by omega⟩
  rw [List.take_succ, ← take_removeAt h hl, getElem?_removeAt h hl, if_neg (by omega)]
  simp only [Nat.add_sub_cancel]

theorem removeAt_last (h : i + 1 = len) (hl : len ≤ a.length) : removeAt a i len = a := by
  apply List.ext_getElem?
  intro k
  rw [getElem?_removeAt (by omega) hl, if_neg (by omega)]

end removeAt

namespace EventDispatcher

variable (ed : EventDispatcher)

def array (a : Nat) : List (Option Observer) := ed.heap[a]?.getD []

def elems (s : Slice) : List (Option Observer) := (ed.array s.array).take s.len

def racesOn (a lo hi : Nat) : Bool := ed.notifies.any (·.meets a lo hi)

/-- The `Notify` calls that writing cells `lo` to `hi - 1` of array `a` races
with. -/
def racedWith (a lo hi : Nat) : List Nat :=
  (List.range ed.notifies.length).filter fun g => (ed.notifies[g]?).any (·.meets a lo hi)

/-- `Subscribe(eventType, observer)`: `append(ed.observers[eventType],
observer)`.  When the array is full, the runtime moves the elements to a new
array; `newCap` stands for the capacity it chooses, which is at least one
more than the length. -/
def subscribe (eventType : String) (observer : Observer) (newCap : Nat) : EventDispatcher :=
  let s := lookup ed.observers eventType
  if s.len < s.cap then
    { ed with
      heap := ed.heap.set s.array ((ed.array s.array).set s.len (some observer))
      observers := (eventType, { s with len := s.len + 1 }) :: ed.observers
      raced := ed.raced || ed.racesOn s.array s.len (s.len + 1)
      racedCalls := ed.racedCalls ++ ed.racedWith s.array s.len (s.len + 1) }
  else
    let c := max newCap (s.len + 1)
    { ed with
      heap := ed.heap ++ [ed.elems s ++ some observer :: List.replicate (c - (s.len + 1)) none]
      observers := (eventType, ⟨ed.heap.length, s.len + 1, c⟩) :: ed.observers }

/-- `Unsubscribe(eventType, observer)`. -/
def unsubscribe (eventType : String) (observer : Observer) : EventDispatcher :=
  let s := lookup ed.observers eventType
  match indexOfID observer.id (ed.elems s) with
  | none => ed
  | some i =>
    { ed with
      heap := ed.heap.set s.array (removeAt (ed.array s.array) i s.len)
      observers := (eventType, { s with len := s.len - 1 }) :: ed.observers
      raced := ed.raced || ed.racesOn s.array i (s.len - 1)
      racedCalls := ed.racedCalls ++ ed.racedWith s.array i (s.len - 1) }

/-- `Notify(event)` up to its `range`: the header copied under the read
lock. -/
def notify (event : Event) : EventDispatcher :=
  { ed with notifies := ed.notifies ++ [⟨event, lookup ed.observers event.type, 0, []⟩] }

/-- An iteration of the `range` of the `Notify` call `g`: it reads the next
element and starts `go func(obs Observer) { obs.Update(event) }(observer)`.
Past the last element it has no iteration left, and at a nil element the call
of `Update` would panic; both give `none`. -/
def update (g : Nat) : Option EventDispatcher := do
  let n ← ed.notifies[g]?
  if n.next < n.observers.len then
    let o ← ((ed.array n.observers.array)[n.next]?).join
    some { ed with
      notifies := ed.notifies.set g { n with next := n.next + 1, updated := n.updated ++ [o] } }
  else none

variable {ed} {g : Nat} {n : NotifyCall}

theorem array_set_heap {a : Nat} (ha : a < ed.heap.length) (x : List (Option Observer))
    (obs : List (String × Slice)) (ns : List NotifyCall) (r : Bool) (rs : List Nat) (b : Nat) :
    (EventDispatcher.mk (ed.heap.set a x) obs ns r rs).array b = if a = b then x else ed.array b := by
  simp only [array, List.getElem?_set]
  split_ifs <;> simp_all

theorem array_append_heap (x : List (Option Observer)) (obs : List (String × Slice))
    (ns : List NotifyCall) (r : Bool) (rs : List Nat) (b : Nat) :
    (EventDispatcher.mk (ed.heap ++ [x]) obs ns r rs).array b =
      if b < ed.heap.length then ed.array b else if b = ed.heap.length then x else [] := by
  simp only [array, List.getElem?_append]
  split_ifs with h₁ h₂ <;> first | rfl | omega | skip
  · simp [h₂]
  · rw [List.getElem?_eq_none (by simp; omega)]
    rfl

theorem update_eq {o : Observer} (hn : ed.notifies[g]? = some n) (hlt : n.next < n.observers.len)
    (ho : (ed.array n.observers.array)[n.next]? = some (some o)) :
    ed.update g = some { ed with
      notifies := ed.notifies.set g { n with next := n.next + 1, updated := n.updated ++ [o] } } := by
  simp [update, hn, hlt, ho]

theorem update_cases {ed' : EventDispatcher} (h : ed.update g = some ed') :
    exists n o, ed.notifies[g]? = some n ∧ n.next < n.observers.len ∧
      (ed.array n.observers.array)[n.next]? = some (some o) ∧
      ed' = { ed with
        notifies := ed.notifies.set g { n with next := n.next + 1, updated := n.updated ++ [o] } } := by
  simp only [update, Option.bind_eq_bind, Option.bind_eq_some] at h
  obtain ⟨n, hn, h⟩ := h
  split at h
  · obtain ⟨o, ho, h⟩ := Option.bind_eq_some.mp h
    exact ⟨n, o, hn, ‹_›, Option.join_eq_some.mp ho, (Option.some.inj h).symm⟩
  · cases h

@[simp] theorem subscribe_notifies (t : String) (o : Observer) (c : Nat) :
    (ed.subscribe t o c).notifies = ed.notifies := by
  unfold subscribe
  dsimp only
  split <;> rfl

@[simp] theorem unsubscribe_notifies (t : String) (o : Observer) :
    (ed.unsubscribe t o).notifies = ed.notifies := by
  unfold unsubscribe
  dsimp only
  split <;> rfl

theorem unsubscribe_of_index {t : String} {o : Observer} {i : Nat}
    (hi : indexOfID o.id (ed.elems (lookup ed.observers t)) = some i) :
    ed.unsubscribe t o = { ed with
      heap := ed.heap.set (lookup ed.observers t).array
        (removeAt (ed.array (lookup ed.observers t).array) i (lookup ed.observers t).len)
      observers := (t, { lookup ed.observers t with len := (lookup ed.observers t).len - 1 }) ::
        ed.observers
      raced := ed.raced ||
        ed.racesOn (lookup ed.observers t).array i ((lookup ed.observers t).len - 1)
      racedCalls := ed.racedCalls ++
        ed.racedWith (lookup ed.observers t).array i ((lookup ed.observers t).len - 1) } := by
  unfold unsubscribe
  simp only [hi]

/-- A write that does not race with a ranging `Notify` misses its cells. -/
theorem NotifyCall.meets_eq_false {a lo hi : Nat} (h : n.meets a lo hi = false)
    (hlt : n.next < n.observers.len) (ha : n.observers.array = a) (hlo : lo < hi) :
    n.observers.len ≤ lo := by
  simpa [NotifyCall.meets, hlt, ha, hlo] using h

theorem mem_racedWith {a lo hi : Nat} :
    g ∈ ed.racedWith a lo hi ↔ exists n, ed.notifies[g]? = some n ∧ n.meets a lo hi = true := by
  simp only [racedWith, List.mem_filter, List.mem_range]
  constructor
  · rintro ⟨hg, h⟩
    exact ⟨_, List.getElem?_eq_getElem hg, by simpa [List.getElem?_eq_getElem hg] using h⟩
  · rintro ⟨n, hn, h⟩
    exact ⟨(List.getElem?_eq_some_iff.mp hn).1, by simp [hn, h]⟩

theorem racesOn_of_done (h : ∀ n ∈ ed.notifies, n.observers.len ≤ n.next) (a lo hi : Nat) :
    ed.racesOn a lo hi = false := by
  simp only [racesOn, List.any_eq_false]
  intro n hn
  have := h n hn
  simp only [NotifyCall.meets, Bool.and_eq_true, decide_eq_true_eq, not_and]
  omega

end EventDispatcher

/-- A move: a whole `Subscribe` or `Unsubscribe`, the start of a `Notify`, or
an iteration of the range of the `Notify` call `g`. -/
inductive Move
  | subscribe (eventType : String) (observer : Observer) (newCap : Nat)
  | unsubscribe (eventType : String) (observer : Observer)
  | notify (event : Event)
  | update (g : Nat)
  deriving DecidableEq, Repr

open EventDispatcher

def step (ed : EventDispatcher) : Move -> Option EventDispatcher
  | .subscribe t o c => some (ed.subscribe t o c)
  | .unsubscribe t o => some (ed.unsubscribe t o)
  | .notify e => some (ed.notify e)
  | .update g => ed.update g

def run (ed : EventDispatcher) : List Move -> Option EventDispatcher
  | [] => some ed
  | m :: ms => (step ed m).bind fun ed' => run ed' ms

theorem run_cons (ed : EventDispatcher) (m : Move) (ms : List Move) :
    run ed (m :: ms) = (step ed m).bind fun ed' => run ed' ms := rfl

theorem run_append (ed : EventDispatcher) (ms ms' : List Move) :
    run ed (ms ++ ms') = (run ed ms).bind fun ed' => run ed' ms' := by
  induction ms generalizing ed with
  | nil => rfl
  | cons m ms ih =>
    simp only [List.cons_append, run_cons, ih, Option.bind_assoc]

/-- A call of the dispatcher's API by a goroutine that waits for it to
return. -/
inductive Call
  | subscribe (eventType : String) (observer : Observer) (newCap : Nat)
  | unsubscribe (eventType : String) (observer : Observer)
  | notify (event : Event)
  deriving DecidableEq, Repr

/-- The moves of `call` made from `ed` with no other move in between: a
`Notify` ranges over the whole header it copies. -/
def Call.moves (ed : EventDispatcher) : Call -> List Move
  | .subscribe t o c => [.subscribe t o c]
  | .unsubscribe t o => [.unsubscribe t o]
  | .notify e =>
    .notify e :: List.replicate (lookup ed.observers e.type).len (.update ed.notifies.length)

/-- Calls made one after another, as the program's `main` makes them. -/
def runCalls (ed : EventDispatcher) : List Call -> Option EventDispatcher
  | [] => some ed
  | c :: cs => (run ed (c.moves ed)).bind fun ed' => runCalls ed' cs

end ObserverDemo
