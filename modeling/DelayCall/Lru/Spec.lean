import Mathlib.Data.List.Nodup

/-!
# What the LRU cache is for

Stated without pointers or maps, the cache is the list of its entries, most
recently used first.  `Get` of a stored key returns its value and moves its
entry to the front.  `Put` puts the entry at the front.  It first drops the
key's old entry; for a new key in a full cache it drops the entry at the back,
the one used least recently.  `Clear` empties the cache.

`Ok` is the invariant of this machine: one entry per key and at most
`capacity` entries.  `Recent` says what a whole run leaves in the cache.  The
cache holds the `capacity` keys used most recently since the last `Clear`,
in the order of their last use.  Here a `Put` uses its key, and so does a
`Get` that finds it.
-/

namespace Lru

/-- A call on the cache that may change it. -/
inductive Op (K V : Type) where
  | get (key : K)
  | put (key : K) (value : V)
  | clear

namespace Spec

variable {K V : Type} [DecidableEq K]

/-- The value stored for `k`. -/
def find (l : List (K × V)) (k : K) : Option V :=
  (l.find? fun e => e.1 = k).map Prod.snd

/-- `(k, v)` at the front, and no other entry of `k`. -/
def touch (l : List (K × V)) (k : K) (v : V) : List (K × V) :=
  (k, v) :: l.filter fun e => e.1 ≠ k

/-- `Get`: a stored key's value, its entry moved to the front. -/
def get (l : List (K × V)) (k : K) : Option V × List (K × V) :=
  match find l k with
  | none => (none, l)
  | some v => (some v, touch l k v)

/-- `Put`: the entry at the front, in place of the key's old one, or, for a
new key, after dropping the back entry of a full cache. -/
def put (capacity : Nat) (l : List (K × V)) (k : K) (v : V) : List (K × V) :=
  match find l k with
  | some _ => touch l k v
  | none => (k, v) :: if l.length ≥ capacity then l.dropLast else l

def step (capacity : Nat) (l : List (K × V)) : Op K V -> List (K × V)
  | .get k => (get l k).2
  | .put k v => put capacity l k v
  | .clear => []

/-- One entry per key, and at most `capacity` entries. -/
structure Ok (capacity : Nat) (l : List (K × V)) : Prop where
  nodup : (l.map Prod.fst).Nodup
  bounded : l.length ≤ capacity

/-!
# Lookups
-/

section Find

variable {l : List (K × V)} {k : K} {v : V}

@[simp] theorem find_nil : find ([] : List (K × V)) k = none := rfl

@[simp] theorem find_cons (k' : K) (v' : V) :
    find ((k', v') :: l) k = if k' = k then some v' else find l k := by
  by_cases h : k' = k <;> simp [find, h]

theorem find_eq_none : find l k = none ↔ k ∉ l.map Prod.fst := by
  simp only [find, Option.map_eq_none', List.find?_eq_none, decide_eq_true_eq, List.mem_map,
    not_exists, not_and]

theorem find_eq_some (h : (l.map Prod.fst).Nodup) : find l k = some v ↔ (k, v) ∈ l := by
  induction l with
  | nil => simp
  | cons e l ih =>
    obtain ⟨k', v'⟩ := e
    simp only [List.map_cons, List.nodup_cons] at h
    by_cases hk : k' = k
    · subst hk
      have : (k', v) ∉ l := fun hm => h.1 (List.mem_map_of_mem Prod.fst hm)
      simp [this, eq_comm]
    · simp [hk, ih h.2, Ne.symm hk]

theorem find_isSome : (find l k).isSome ↔ k ∈ l.map Prod.fst := by
  rw [← not_iff_not, Option.not_isSome_iff_eq_none, find_eq_none]

@[simp] theorem get_fst : (get l k).1 = find l k := by
  unfold get
  split <;> simp [*]

theorem find_put_self {capacity : Nat} : find (put capacity l k v) k = some v := by
  unfold put
  split <;> simp [touch]

end Find

/-!
# The invariant
-/

section Ok

variable {capacity : Nat} {l : List (K × V)} {k : K} {v : V}

theorem keys_filter (h : (l.map Prod.fst).Nodup) :
    (l.filter fun e => e.1 ≠ k).map Prod.fst = (l.map Prod.fst).erase k := by
  rw [h.erase_eq_filter, List.filter_map]
  congr 1
  exact List.filter_congr fun e _ => by by_cases e.1 = k <;> simp [*]

theorem touch_split {l₁ l₂ : List (K × V)} {v₀ : V}
    (h : ((l₁ ++ (k, v₀) :: l₂).map Prod.fst).Nodup) :
    touch (l₁ ++ (k, v₀) :: l₂) k v = (k, v) :: (l₁ ++ l₂) := by
  simp only [List.map_append, List.map_cons, List.nodup_append, List.nodup_cons,
    List.disjoint_cons_right] at h
  have h₁ : (l₁.filter fun e => e.1 ≠ k) = l₁ := List.filter_eq_self.2 fun e he =>
    decide_eq_true fun hk => h.2.2.1 (hk ▸ List.mem_map_of_mem _ he)
  have h₂ : (l₂.filter fun e => e.1 ≠ k) = l₂ := List.filter_eq_self.2 fun e he =>
    decide_eq_true fun hk => h.2.1.1 (hk ▸ List.mem_map_of_mem _ he)
  rw [touch, List.filter_append, h₁, List.filter_cons, h₂]
  simp

theorem Ok.touch (h : Ok capacity l) (hk : k ∈ l.map Prod.fst) : Ok capacity (touch l k v) := by
  obtain ⟨⟨k, v'⟩, hm, rfl⟩ := List.mem_map.1 hk
  have hlt : (l.filter fun e => e.1 ≠ k).length < l.length :=
    List.length_filter_lt_length_iff_exists.2 ⟨_, hm, by simp⟩
  refine ⟨?_, by simp only [Spec.touch, List.length_cons]; have := h.bounded; omega⟩
  simp only [Spec.touch, List.map_cons, keys_filter h.nodup, List.nodup_cons]
  exact ⟨List.Nodup.not_mem_erase h.nodup, h.nodup.erase k⟩

theorem Ok.get (h : Ok capacity l) : Ok capacity (get l k).2 := by
  unfold Spec.get
  split
  · exact h
  · exact h.touch (find_isSome.1 (by simp [*]))

theorem Ok.put (h : Ok capacity l) (hpos : 0 < capacity) : Ok capacity (put capacity l k v) := by
  unfold Spec.put
  split
  · exact h.touch (find_isSome.1 (by simp [*]))
  · rename_i hnone
    have hk := find_eq_none.1 hnone
    have hsub : List.Sublist (if l.length ≥ capacity then l.dropLast else l) l := by
      split
      · exact List.dropLast_sublist l
      · exact List.Sublist.refl l
    refine ⟨?_, ?_⟩
    · simp only [List.map_cons, List.nodup_cons]
      exact ⟨fun hm => hk ((hsub.map Prod.fst).subset hm), h.nodup.sublist (hsub.map Prod.fst)⟩
    · have := h.bounded
      split <;> simp only [List.length_cons, List.length_dropLast] <;> omega

theorem Ok.step (h : Ok capacity l) (hpos : 0 < capacity) (op : Op K V) :
    Ok capacity (step capacity l op) := by
  cases op with
  | get k => exact h.get
  | put k v => exact h.put hpos
  | clear => exact ⟨List.nodup_nil, Nat.zero_le _⟩

end Ok

/-!
# Least recently used

A history lists the keys used, newest first.  `latest u` keeps each key of
`u` once, where it was used last.
-/

/-- The distinct keys of `u`, each at its first occurrence. -/
def latest : List K -> List K
  | [] => []
  | k :: u => k :: (latest u).erase k

/-- The history after `op` on the entries `l`: a `Put` uses its key, a `Get`
its key when it is stored, and `Clear` starts a new history. -/
def record (l : List (K × V)) (u : List K) : Op K V -> List K
  | .get k => if (find l k).isSome then k :: u else u
  | .put k _ => k :: u
  | .clear => []

/-- The keys stored are the `capacity` keys of `u` used last, most recent
first. -/
def Recent (capacity : Nat) (l : List (K × V)) (u : List K) : Prop :=
  l.map Prod.fst = (latest u).take capacity

/-- The entries and the history after `ops`, from `s`. -/
def runFrom (capacity : Nat) (s : List (K × V) × List K) (ops : List (Op K V)) :
    List (K × V) × List K :=
  ops.foldl (fun s op => (step capacity s.1 op, record s.1 s.2 op)) s

section Recent

variable {capacity : Nat} {l : List (K × V)} {u L : List K} {k : K} {v : V}

theorem latest_nodup : (u : List K) -> (latest u).Nodup
  | [] => List.nodup_nil
  | k :: u => List.nodup_cons.2 ⟨(latest_nodup u).not_mem_erase, (latest_nodup u).erase k⟩

theorem take_erase_of_mem (hL : L.Nodup) : forall {n}, k ∈ L.take (n + 1) ->
    (L.take (n + 1)).erase k = (L.erase k).take n := by
  induction L with
  | nil => simp
  | cons a L ih =>
    intro n hk
    by_cases ha : a = k
    · subst ha
      simp
    · obtain ⟨m, rfl⟩ : exists m, n = m + 1 := by
        cases n with
        | zero => simp [Ne.symm ha] at hk
        | succ m => exact ⟨m, rfl⟩
      simp only [List.take_succ_cons, List.mem_cons, Ne.symm ha, false_or] at hk
      simp [List.erase_cons, ha, ih (List.nodup_cons.1 hL).2 hk]

theorem take_erase_of_not_mem : forall {n}, k ∉ L.take n -> (L.erase k).take n = L.take n := by
  induction L with
  | nil => simp
  | cons a L ih =>
    intro n hk
    cases n with
    | zero => simp
    | succ n =>
      have ha : a ≠ k := fun h => hk (by simp [h])
      simp only [List.take_succ_cons, List.mem_cons, not_or] at hk
      simp [List.erase_cons, ha, ih hk.2]

theorem Recent.touch (h : Recent capacity l u) (hnd : (l.map Prod.fst).Nodup)
    (hk : k ∈ l.map Prod.fst) : Recent capacity (touch l k v) (k :: u) := by
  obtain ⟨n, rfl⟩ : exists n, capacity = n + 1 := by
    cases capacity with
    | zero => simp [Recent] at h; simp [h] at hk
    | succ n => exact ⟨n, rfl⟩
  simp only [Recent, Spec.touch, List.map_cons, keys_filter hnd, latest, List.take_succ_cons]
  rw [h] at hk ⊢
  rw [take_erase_of_mem (latest_nodup u) hk]

theorem Recent.add (h : Recent capacity l u) (hk : k ∉ l.map Prod.fst) (hpos : 0 < capacity) :
    Recent capacity ((k, v) :: if l.length ≥ capacity then l.dropLast else l) (k :: u) := by
  obtain ⟨n, rfl⟩ : exists n, capacity = n + 1 := ⟨capacity - 1, by omega⟩
  have hlen : l.length = min (n + 1) (latest u).length := by
    rw [← List.length_map l Prod.fst, h, List.length_take]
  rw [h] at hk
  have hkn : k ∉ (latest u).take n := fun hm =>
    hk (by simpa [List.take_take] using List.take_subset_take_left _ (Nat.le_succ n) hm)
  simp only [Recent, List.map_cons, latest, List.take_succ_cons, take_erase_of_not_mem hkn]
  congr 1
  split
  · rw [List.map_dropLast, h, List.dropLast_eq_take, List.take_take, List.length_take]
    congr 1
    omega
  · rw [h, List.take_of_length_le (by omega), List.take_of_length_le (by omega)]

theorem Recent.step (h : Recent capacity l u) (hok : Ok capacity l) (hpos : 0 < capacity)
    (op : Op K V) : Recent capacity (step capacity l op) (record l u op) := by
  cases op with
  | get k =>
    simp only [Spec.step, Spec.get, record]
    cases hf : find l k with
    | none => exact h
    | some v => exact h.touch hok.nodup (find_isSome.1 (by simp [hf]))
  | put k v =>
    simp only [Spec.step, Spec.put, record]
    cases hf : find l k with
    | none => exact h.add (find_eq_none.1 hf) hpos
    | some v' => exact h.touch hok.nodup (find_isSome.1 (by simp [hf]))
  | clear => simp [Recent, Spec.step, record, latest]

/-- Every run keeps the invariant and the eviction policy: from any entries
that hold them, the cache ends with the `capacity` keys used last. -/
theorem runFrom_ok_recent (hpos : 0 < capacity) : forall (ops : List (Op K V)) {s},
    Ok capacity s.1 -> Recent capacity s.1 s.2 ->
    Ok capacity (runFrom capacity s ops).1 ∧
      Recent capacity (runFrom capacity s ops).1 (runFrom capacity s ops).2
  | [], _, hok, h => ⟨hok, h⟩
  | op :: ops, _, hok, h => runFrom_ok_recent hpos ops (hok.step hpos op) (h.step hok hpos op)

end Recent

end Spec

end Lru
