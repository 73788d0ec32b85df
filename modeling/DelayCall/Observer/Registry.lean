import DelayCall.Observer.Dispatcher
import Mathlib.Logic.Function.Basic

/-!
# What the dispatcher is for, and that every run keeps to it

A `Registry` lists each event type's observers in the order they subscribed.
`Subscribe` adds at the end, and `Unsubscribe` removes the first observer
with the same ID.  `Holds R ed` says that the dispatcher's map and arrays
hold `R`.  Each event type's slice holds its observers, fits in its backing
array, and shares that array with no other event type.  Every `Notify` that
is still ranging finds an observer in each cell it has yet to read.

`Holds` is kept by every move, so it holds in every state of every run,
whatever the interleaving, with `R` the registry of the writers' calls made
so far (`run_refines`).  The write lock keeps the writers apart, and `Notify`
never writes.  So a race can make a `Notify` reach the wrong observers, but
it never damages the map or its arrays, and no `Notify` meets a nil element.
-/

namespace ObserverDemo

/-- The observers of each event type, in the order they subscribed. -/
def Registry : Type := String -> List Observer

namespace Registry

def empty : Registry := fun _ => []

/-- `Subscribe` adds `o` at the end of `t`'s observers. -/
def subscribe (R : Registry) (t : String) (o : Observer) : Registry :=
  Function.update R t (R t ++ [o])

/-- `Unsubscribe` removes the first of `t`'s observers with `o`'s ID. -/
def unsubscribe (R : Registry) (t : String) (o : Observer) : Registry :=
  Function.update R t ((R t).eraseP fun x => x.id == o.id)

/-- The writers change the registry, and `Notify` only reads it. -/
def apply (R : Registry) : Move -> Registry
  | .subscribe t o _ => R.subscribe t o
  | .unsubscribe t o => R.unsubscribe t o
  | .notify _ | .update _ => R

def run (R : Registry) (moves : List Move) : Registry := moves.foldl apply R

/-- The observers each `Notify` among `calls` reaches, in the order of the
calls. -/
def exec : Registry -> List Call -> List (List Observer)
  | _, [] => []
  | R, .subscribe t o _ :: cs => exec (R.subscribe t o) cs
  | R, .unsubscribe t o :: cs => exec (R.unsubscribe t o) cs
  | R, .notify e :: cs => R e.type :: exec R cs

end Registry

open EventDispatcher

/-- Cell `k` of backing array `a` holds an observer. -/
def Filled (ed : EventDispatcher) (a k : Nat) : Prop :=
  exists o, (ed.array a)[k]? = some (some o)

theorem Filled.lt_length {ed : EventDispatcher} {a k : Nat} (h : Filled ed a k) :
    a < ed.heap.length := by
  obtain ⟨o, ho⟩ := h
  by_contra hn
  simp [array, List.getElem?_eq_none (not_lt.mp hn)] at ho

/-- The dispatcher's map and arrays hold registry `R`. -/
structure Holds (R : Registry) (ed : EventDispatcher) : Prop where
  elems : forall t, ed.elems (lookup ed.observers t) = (R t).map some
  len_le : forall t, (lookup ed.observers t).len ≤ (lookup ed.observers t).cap
  array : forall t, 0 < (lookup ed.observers t).cap ->
    (lookup ed.observers t).array < ed.heap.length ∧
      (ed.array (lookup ed.observers t).array).length = (lookup ed.observers t).cap
  owner : forall t t', t ≠ t' -> 0 < (lookup ed.observers t).cap ->
    0 < (lookup ed.observers t').cap -> (lookup ed.observers t).array ≠ (lookup ed.observers t').array
  ranging : ∀ n ∈ ed.notifies, n.next ≤ n.observers.len ∧
    forall k, n.next ≤ k -> k < n.observers.len -> Filled ed n.observers.array k

namespace Holds

variable {R : Registry} {ed : EventDispatcher}

theorem len_eq (h : Holds R ed) (t : String) : (lookup ed.observers t).len = (R t).length := by
  have hl := congrArg List.length (h.elems t)
  have := h.len_le t
  simp only [EventDispatcher.elems, List.length_take, List.length_map] at hl
  by_cases hc : 0 < (lookup ed.observers t).cap
  · have := (h.array t hc).2
    omega
  · omega

theorem filled (h : Holds R ed) {t : String} {k : Nat} (hk : k < (lookup ed.observers t).len) :
    Filled ed (lookup ed.observers t).array k := by
  have hk' : k < (R t).length := h.len_eq t ▸ hk
  refine ⟨(R t)[k], ?_⟩
  have := congrArg (·[k]?) (h.elems t)
  simpa [EventDispatcher.elems, List.getElem?_take, hk, hk'] using this

theorem init : Holds .empty newEventDispatcher where
  elems _ := rfl
  len_le _ := le_rfl
  array _ h := absurd h (lt_irrefl 0)
  owner _ _ _ h := absurd h (lt_irrefl 0)
  ranging _ h := absurd h (List.not_mem_nil _)

theorem write (h : Holds R ed) {t : String} {s : Slice} {L : List Observer}
    {ed' : EventDispatcher} (hobs : ed'.observers = (t, s) :: ed.observers)
    (hnot : ed'.notifies = ed.notifies) (hheap : ed.heap.length ≤ ed'.heap.length)
    (hframe : forall b, b < ed.heap.length -> b ≠ s.array -> ed'.array b = ed.array b)
    (hfilled : forall b k, Filled ed b k -> Filled ed' b k)
    (helems : ed'.elems s = L.map some) (hlen : s.len ≤ s.cap)
    (harray : 0 < s.cap -> s.array < ed'.heap.length ∧ (ed'.array s.array).length = s.cap)
    (hfresh : s.array = (lookup ed.observers t).array ∧ 0 < (lookup ed.observers t).cap ∨
      ed.heap.length ≤ s.array) :
    Holds (Function.update R t L) ed' := by
  have hother : forall t', t ≠ t' -> 0 < (lookup ed.observers t').cap ->
      (lookup ed.observers t').array < ed.heap.length ∧ (lookup ed.observers t').array ≠ s.array := by
    intro t' ht hc
    refine ⟨(h.array t' hc).1, fun he => ?_⟩
    rcases hfresh with ⟨hs, hc'⟩ | hs
    · exact h.owner t t' ht hc' hc (hs ▸ he.symm)
    · have := (h.array t' hc).1
      omega
  have hlook : forall t', lookup ed'.observers t' = if t = t' then s else lookup ed.observers t' := by
    intro t'
    rw [hobs, lookup_cons]
  constructor
  · intro t'
    rw [hlook]
    by_cases ht : t = t'
    · subst ht
      simp [helems]
    · rw [if_neg ht, Function.update_noteq (Ne.symm ht), ← h.elems t']
      by_cases hc : 0 < (lookup ed.observers t').cap
      · simp only [EventDispatcher.elems, hframe _ (hother t' ht hc).1 (hother t' ht hc).2]
      · have : (lookup ed.observers t').len = 0 := by
          have := h.len_le t'
          omega
        simp [EventDispatcher.elems, this]
  · intro t'
    rw [hlook]
    split_ifs
    · exact hlen
    · exact h.len_le t'
  · intro t' hc
    rw [hlook] at hc ⊢
    split_ifs at hc ⊢ with ht
    · exact harray hc
    · obtain ⟨hlt, hne⟩ := hother t' ht hc
      exact ⟨by omega, by rw [hframe _ hlt hne]; exact (h.array t' hc).2⟩
  · intro t₁ t₂ hne hc₁ hc₂
    rw [hlook] at hc₁ hc₂ ⊢
    rw [hlook]
    by_cases h₁ : t = t₁ <;> by_cases h₂ : t = t₂
    · exact absurd (h₁.symm.trans h₂) hne
    · rw [if_pos h₁] at hc₁ ⊢
      rw [if_neg h₂] at hc₂ ⊢
      exact ((hother t₂ h₂ hc₂).2).symm
    · rw [if_neg h₁] at hc₁ ⊢
      rw [if_pos h₂] at hc₂ ⊢
      exact (hother t₁ h₁ hc₁).2
    · rw [if_neg h₁] at hc₁ ⊢
      rw [if_neg h₂] at hc₂ ⊢
      exact h.owner t₁ t₂ hne hc₁ hc₂
  · intro n hn
    rw [hnot] at hn
    obtain ⟨hle, hk⟩ := h.ranging n hn
    exact ⟨hle, fun k h₁ h₂ => hfilled _ _ (hk k h₁ h₂)⟩

theorem subscribe (h : Holds R ed) (t : String) (o : Observer) (c : Nat) :
    Holds (R.subscribe t o) (ed.subscribe t o c) := by
  have hlen := h.len_eq t
  have helems := h.elems t
  have hle := h.len_le t
  have harr := h.array t
  unfold EventDispatcher.subscribe Registry.subscribe
  dsimp only
  split_ifs with hlt
  · -- in place: the array has room
    obtain ⟨ha, hal⟩ := harr (by omega)
    refine h.write rfl rfl (by simp) (fun b _ hb => ?_) (fun b k hf => ?_) ?_ hlt ?_
      (.inl ⟨rfl, by omega⟩)
    · rw [array_set_heap ha, if_neg (Ne.symm hb)]
    · obtain ⟨o', ho'⟩ := hf
      rw [Filled, array_set_heap ha]
      split_ifs with hb
      · subst hb
        by_cases hk : (lookup ed.observers t).len = k
        · exact ⟨o, by rw [← hk, List.getElem?_set_self (by omega)]⟩
        · exact ⟨o', by rw [List.getElem?_set_ne hk]; exact ho'⟩
      · exact ⟨o', ho'⟩
    · rw [EventDispatcher.elems, array_set_heap ha, if_pos rfl, List.take_succ, List.set_take,
        List.set_eq_of_length_le (List.length_take_le _ _), List.getElem?_set_self (by omega)]
      simpa [EventDispatcher.elems] using helems
    · intro _
      dsimp only
      rw [array_set_heap ha, if_pos rfl]
      simp [ha, hal]
  · -- full: the runtime moves the elements to a new array
    have hfull : (ed.elems (lookup ed.observers t)).length = (lookup ed.observers t).len := by
      rw [helems, List.length_map, hlen]
    refine h.write rfl rfl (by simp) (fun b hb _ => ?_) (fun b k hf => ?_) ?_ (le_max_right _ _) ?_
      (.inr le_rfl)
    · rw [array_append_heap, if_pos hb]
    · obtain ⟨o', ho'⟩ := hf
      exact ⟨o', by rw [array_append_heap, if_pos (Filled.lt_length ⟨o', ho'⟩)]; exact ho'⟩
    · rw [EventDispatcher.elems, array_append_heap, if_neg (lt_irrefl _), if_pos rfl,
        List.take_append_eq_append_take, List.take_of_length_le (by rw [hfull]; exact Nat.le_succ _), hfull, helems]
      simp
    · intro _
      rw [array_append_heap, if_neg (lt_irrefl _), if_pos rfl]
      simp only [List.length_append, List.length_cons, List.length_replicate, hfull]
      exact ⟨by simp, by omega⟩

theorem unsubscribe (h : Holds R ed) (t : String) (o : Observer) :
    Holds (R.unsubscribe t o) (ed.unsubscribe t o) := by
  have hlen := h.len_eq t
  have helems := h.elems t
  have harr := h.array t
  unfold EventDispatcher.unsubscribe Registry.unsubscribe
  dsimp only
  split
  · next hi =>
    rw [helems] at hi
    rwa [indexOfID_map_none hi, Function.update_eq_self]
  · next i hi =>
    have hi' : i < (lookup ed.observers t).len := by
      have := indexOfID_lt hi
      rwa [helems, List.length_map, ← hlen] at this
    obtain ⟨ha, hal⟩ := harr (by have := h.len_le t; omega)
    have hl : (lookup ed.observers t).len ≤ (ed.array (lookup ed.observers t).array).length := by
      rw [hal]
      exact h.len_le t
    rw [helems] at hi
    refine h.write rfl rfl (by simp) (fun b _ hb => ?_) (fun b k hf => ?_) ?_
      (by dsimp only; have := h.len_le t; omega) ?_ (.inl ⟨rfl, by omega⟩)
    · rw [array_set_heap ha, if_neg (Ne.symm hb)]
    · obtain ⟨o', ho'⟩ := hf
      rw [Filled, array_set_heap ha]
      split_ifs with hb
      · subst hb
        rw [getElem?_removeAt hi' hl]
        split_ifs with hk
        · exact h.filled (by omega)
        · exact ⟨o', ho'⟩
      · exact ⟨o', ho'⟩
    · dsimp only
      rw [EventDispatcher.elems, array_set_heap ha, if_pos rfl, take_removeAt hi' hl,
        ← EventDispatcher.elems, helems]
      exact indexOfID_map_some hi
    · intro _
      dsimp only
      rw [array_set_heap ha, if_pos rfl]
      simp [ha, length_removeAt hi' hl, hal]

theorem notify (h : Holds R ed) (e : Event) : Holds R (ed.notify e) where
  elems := h.elems
  len_le := h.len_le
  array := h.array
  owner := h.owner
  ranging n hn := by
    rcases List.mem_append.mp hn with hn | hn
    · exact h.ranging n hn
    · obtain rfl := List.mem_singleton.mp hn
      exact ⟨Nat.zero_le _, fun k _ hk => h.filled hk⟩

theorem update (h : Holds R ed) {g : Nat} {ed' : EventDispatcher} (hu : ed.update g = some ed') :
    Holds R ed' := by
  obtain ⟨n, o, hn, hlt, -, rfl⟩ := update_cases hu
  refine { elems := h.elems, len_le := h.len_le, array := h.array, owner := h.owner,
           ranging := fun n' hn' => ?_ }
  rcases List.mem_or_eq_of_mem_set hn' with hn' | rfl
  · exact h.ranging n' hn'
  · obtain ⟨-, hk⟩ := h.ranging n (List.getElem?_mem hn)
    exact ⟨hlt, fun k h₁ h₂ => hk k (by dsimp only at h₁; omega) h₂⟩

theorem step (h : Holds R ed) {m : Move} {ed' : EventDispatcher}
    (hs : ObserverDemo.step ed m = some ed') : Holds (R.apply m) ed' := by
  cases m with
  | subscribe t o c =>
    cases hs
    exact h.subscribe t o c
  | unsubscribe t o =>
    cases hs
    exact h.unsubscribe t o
  | notify e =>
    cases hs
    exact h.notify e
  | update g => exact h.update hs

theorem run (h : Holds R ed) (moves : List Move) {ed' : EventDispatcher}
    (hr : ObserverDemo.run ed moves = some ed') : Holds (R.run moves) ed' := by
  induction moves generalizing R ed with
  | nil =>
    cases hr
    exact h
  | cons m ms ih =>
    obtain ⟨ed₁, h₁, h₂⟩ := Option.bind_eq_some.mp hr
    exact ih (h.step h₁) h₂

end Holds

/-- In every run, whatever the interleaving, each event type's slice holds
the observers that the `Subscribe` and `Unsubscribe` calls made so far leave
it.  Every `Notify` still ranging can make its next iteration: the cell it
reads holds an observer, never a nil interface. -/
theorem run_refines (moves : List Move) (ed : EventDispatcher)
    (h : run newEventDispatcher moves = some ed) :
    (forall t, ed.elems (lookup ed.observers t) = (Registry.empty.run moves t).map some) ∧
      forall g n, ed.notifies[g]? = some n -> n.next < n.observers.len ->
        exists o, ed.update g = some { ed with
          notifies := ed.notifies.set g { n with next := n.next + 1, updated := n.updated ++ [o] } } := by
  have hR := Holds.init.run moves h
  refine ⟨hR.elems, fun g n hn hlt => ?_⟩
  obtain ⟨o, ho⟩ := (hR.ranging n (List.getElem?_mem hn)).2 n.next le_rfl hlt
  exact ⟨o, update_eq hn hlt ho⟩

theorem run_refines_one_observer :
    exists ed, run newEventDispatcher
        [.subscribe "price_update" ⟨0, "email1"⟩ 1, .notify ⟨"price_update"⟩] = some ed ∧
      (forall t, ed.elems (lookup ed.observers t) = (Registry.empty.run
        [.subscribe "price_update" ⟨0, "email1"⟩ 1, .notify ⟨"price_update"⟩] t).map some) ∧
      forall g n, ed.notifies[g]? = some n -> n.next < n.observers.len ->
        exists o, ed.update g = some { ed with
          notifies := ed.notifies.set g { n with next := n.next + 1, updated := n.updated ++ [o] } } :=
  ⟨_, rfl, run_refines _ _ rfl⟩

end ObserverDemo
