import DelayCall.Lru.Refinement

/-!
# Whole runs of the cache

A client makes the cache with `NewLRUCache` and then calls `Get`, `Put` and
`Clear` in any order.  Over every such run the cache never follows a nil
pointer, and it stores what the specification's run stores.  So `Get` answers
as the specification does, `Size` stays within `Capacity`, and `Keys` lists
the `capacity` keys used last.  The runs are over key types whose `==` is an
equality (`LawfulBEq`), as for the demonstration's string keys.
-/

namespace Lru
namespace LRUCache

variable {K V : Type} [BEq K]

def exec (c : LRUCache K V) : Op K V -> Option (LRUCache K V)
  | .get k => (c.get k).map Prod.snd
  | .put k v => c.put k v
  | .clear => some c.clear

def run (c : LRUCache K V) (ops : List (Op K V)) : Option (LRUCache K V) :=
  ops.foldlM exec c

/-- The cache `NewLRUCache(capacity)` makes, after the calls `ops`. -/
def start (capacity : Int) (ops : List (Op K V)) : Option (LRUCache K V) :=
  (newLRUCache capacity).bind fun c => c.run ops

/-- The calls of `demonstrateBasicOperations`, on a cache of capacity 3. -/
def demoOps : List (Op String Nat) :=
  [.put "a" 1, .put "b" 2, .put "c" 3, .get "a", .put "d" 4, .get "b"]

section Lawful

variable [LawfulBEq K] [DecidableEq K] {c : LRUCache K V} {ptrs : List Nat} {l : List (K × V)}

theorem Repr.exec (h : Repr c ptrs l) (op : Op K V) :
    exists c' ptrs', c.exec op = some c' ∧ Repr c' ptrs' (Spec.step c.capacity.toNat l op) ∧
      c'.capacity = c.capacity := by
  cases op with
  | get k =>
    obtain ⟨c', ptrs', hg, hr, hc⟩ := h.get k
    exact ⟨c', ptrs', by simp [LRUCache.exec, hg], hr, hc⟩
  | put k v => exact h.put k v
  | clear => exact ⟨c.clear, [], rfl, h.clear, rfl⟩

theorem Repr.run (h : Repr c ptrs l) (ops : List (Op K V)) (u : List K) :
    exists c' ptrs', c.run ops = some c' ∧
      Repr c' ptrs' (Spec.runFrom c.capacity.toNat (l, u) ops).1 ∧ c'.capacity = c.capacity := by
  induction ops generalizing c ptrs l u with
  | nil => exact ⟨c, ptrs, rfl, h, rfl⟩
  | cons op ops ih =>
    obtain ⟨c₁, ptrs₁, h₁, hr₁, hc₁⟩ := h.exec op
    obtain ⟨c₂, ptrs₂, h₂, hr₂, hc₂⟩ := ih hr₁ (Spec.record l u op)
    rw [hc₁] at hr₂ hc₂
    exact ⟨c₂, ptrs₂, by simpa [LRUCache.run, h₁] using h₂, hr₂, hc₂⟩

theorem start_repr {capacity : Int} (hpos : 0 < capacity) (ops : List (Op K V)) :
    exists c ptrs, start capacity ops = some c ∧
      Repr c ptrs (Spec.runFrom capacity.toNat ([], []) ops).1 ∧ c.capacity = capacity := by
  obtain ⟨c₀, h₀, hr₀, hc₀⟩ := newLRUCache_repr (K := K) (V := V) hpos
  obtain ⟨c, ptrs, h, hr, hc⟩ := hr₀.run ops []
  rw [hc₀] at hr hc
  exact ⟨c, ptrs, by simp [start, h₀, h], hr, hc⟩

/-- Every run from `NewLRUCache(capacity)`, for a positive capacity, goes to
the end without following a nil pointer, and the cache then stores the
entries of the specification's run. -/
theorem start_refines {capacity : Int} (hpos : 0 < capacity) (ops : List (Op K V)) :
    exists c ptrs, start capacity ops = some c ∧
      Repr c ptrs (Spec.runFrom capacity.toNat ([], []) ops).1 ∧ c.capacity = capacity :=
  start_repr hpos ops

theorem demo_refines : (0 : Int) < 3 ∧ exists c ptrs, start 3 demoOps = some c ∧
    Repr c ptrs (Spec.runFrom (3 : Int).toNat ([], []) demoOps).1 ∧ c.capacity = 3 :=
  ⟨by decide, start_refines (by decide) demoOps⟩

/-- After any run, `Get(key)` answers as the specification's entries say: the
stored value and `true`, or `nil, false`. -/
theorem start_get {capacity : Int} (hpos : 0 < capacity) (ops : List (Op K V)) (k : K) :
    exists c c', start capacity ops = some c ∧
      c.get k = some ((Spec.find (Spec.runFrom capacity.toNat ([], []) ops).1 k,
        (Spec.find (Spec.runFrom capacity.toNat ([], []) ops).1 k).isSome), c') := by
  obtain ⟨c, ptrs, h, hr, -⟩ := start_repr hpos ops
  obtain ⟨c', -, hg, -⟩ := hr.get k
  exact ⟨c, c', h, by simpa using hg⟩

theorem demo_get : (0 : Int) < 3 ∧ exists c c', start 3 demoOps = some c ∧
    c.get "b" = some ((Spec.find (Spec.runFrom (3 : Int).toNat ([], []) demoOps).1 "b",
      (Spec.find (Spec.runFrom (3 : Int).toNat ([], []) demoOps).1 "b").isSome), c') :=
  ⟨by decide, start_get (by decide) demoOps "b"⟩

/-- After any run, a `Put(key, value)` followed by `Get(key)` returns `value`
and `true`. -/
theorem start_put_get {capacity : Int} (hpos : 0 < capacity) (ops : List (Op K V)) (k : K)
    (v : V) :
    exists c c₁ c₂, start capacity ops = some c ∧ c.put k v = some c₁ ∧
      c₁.get k = some ((some v, true), c₂) := by
  obtain ⟨c, ptrs, h, hr, -⟩ := start_repr hpos ops
  obtain ⟨c₁, ptrs₁, h₁, hr₁, -⟩ := hr.put k v
  obtain ⟨c₂, -, hg, -⟩ := hr₁.get k
  exact ⟨c, c₁, c₂, h, h₁, by simpa [Spec.find_put_self] using hg⟩

theorem demo_put_get : (0 : Int) < 3 ∧ exists c c₁ c₂, start 3 demoOps = some c ∧
    c.put "b" 5 = some c₁ ∧ c₁.get "b" = some ((some 5, true), c₂) :=
  ⟨by decide, start_put_get (by decide) demoOps "b" 5⟩

/-- After any run, `Size()` is at most `Capacity()`. -/
theorem start_size_le {capacity : Int} (hpos : 0 < capacity) (ops : List (Op K V)) :
    exists c, start capacity ops = some c ∧ (c.size : Int) ≤ capacity := by
  obtain ⟨c, ptrs, h, hr, hc⟩ := start_repr hpos ops
  exact ⟨c, h, hc ▸ hr.size_le⟩

theorem demo_size_le : (0 : Int) < 3 ∧ exists c, start 3 demoOps = some c ∧ (c.size : Int) ≤ 3 :=
  ⟨by decide, start_size_le (by decide) demoOps⟩

/-- The eviction policy: after any run, `Keys` lists the `capacity` keys used
last since the last `Clear` (by a `Put`, or by a `Get` that found them), most
recently used first.  Its loop stops within `Size() + 1` rounds. -/
theorem start_keys {capacity : Int} (hpos : 0 < capacity) (ops : List (Op K V)) :
    exists c, start capacity ops = some c ∧ forall fuel, c.size < fuel ->
      c.keys fuel = some (((Spec.latest (Spec.runFrom capacity.toNat ([], []) ops).2).take
        capacity.toNat).map some) := by
  obtain ⟨c, ptrs, h, hr, -⟩ := start_repr hpos ops
  have hcap := Int.toNat_of_nonneg hpos.le
  have hrec : Spec.Recent capacity.toNat (Spec.runFrom capacity.toNat ([], []) ops).1
      (Spec.runFrom capacity.toNat ([], []) ops).2 :=
    (Spec.runFrom_ok_recent (by omega) ops (s := ([], [])) ⟨List.nodup_nil, Nat.zero_le _⟩
      (by simp [Spec.Recent, Spec.latest])).2
  refine ⟨c, h, fun fuel hf => ?_⟩
  rw [hr.keys hf, ← hrec, List.map_map]
  rfl

theorem demo_keys : (0 : Int) < 3 ∧ exists c, start 3 demoOps = some c ∧ forall fuel, c.size < fuel ->
    c.keys fuel = some (((Spec.latest (Spec.runFrom (3 : Int).toNat ([], []) demoOps).2).take
      (3 : Int).toNat).map some) :=
  ⟨by decide, start_keys (by decide) demoOps⟩

end Lawful

/-!
# Keys that are `==` to no key

For a key type whose `==` is not reflexive, the refinement fails.  A float64
NaN is `==` to nothing, so the map never finds it: each `Put` of it adds a
node and a map entry, and evicting a node that holds it deletes nothing from
the map.
-/

section Irreflexive

variable {c c' : LRUCache K V}

/-- Every key a node holds is `==` to no key. -/
def NaNKeys (c : LRUCache K V) : Prop := ∀ p k, c.key p = some k → ∀ x, (x == k) = false

theorem evict_of_irrefl (h : c.evict = some c') (hkeys : c.NaNKeys) : Relinked c c' := by
  simp only [evict, popTail, Option.bind_eq_bind, Option.bind_eq_some, Option.pure_def,
    Option.some.injEq] at h
  obtain ⟨_, ⟨p, _, c₁, h₁, rfl⟩, rfl⟩ := h
  obtain ⟨pv, nx, rfl⟩ := removeNode_relinked h₁
  refine ⟨pv, nx, ?_⟩
  split
  · next k' hk' => simp [Go.Map.erase_of_irrefl (hkeys p k' hk')]
  · rfl

theorem put_of_irrefl {k : K} {v : V} (hk : ∀ x, (x == k) = false) (hkeys : c.NaNKeys)
    (h : c.put k v = some c') : c'.size = c.size + 1 ∧ c'.NaNKeys := by
  have hkeys₁ : (c.alloc k v).NaNKeys := by
    intro p k' hp
    by_cases hpf : p = c.fresh
    · subst hpf
      simp only [alloc, Function.update_same, Option.some.injEq] at hp
      exact hp ▸ hk
    · exact hkeys p k' (by simpa [alloc, hpf] using hp)
  rw [put, Go.Map.lookup_of_irrefl hk] at h
  simp only [Option.bind_eq_bind, Option.bind_eq_some, Option.pure_def, Option.some_bind,
    Option.some.injEq] at h
  obtain ⟨c₁, ⟨pv, nx, rfl⟩, c₂, h₂, rfl⟩ : exists c₁, Relinked (c.alloc k v) c₁ ∧ exists c₂,
      c₁.addNode c.fresh = some c₂ ∧ { c₂ with cache := c₂.cache.insert k c.fresh } = c' := by
    split at h
    · cases h₁ : (c.alloc k v).evict with
      | none => simp [h₁] at h
      | some c₁ =>
        simp only [h₁] at h
        exact ⟨c₁, evict_of_irrefl h₁ hkeys₁,
          by simpa only [Option.bind_eq_some, Option.some.injEq, exists_eq_left'] using h⟩
    · exact ⟨_, ⟨(c.alloc k v).prev, (c.alloc k v).next, rfl⟩,
        by simpa only [Option.bind_eq_some, Option.some.injEq] using h⟩
  obtain ⟨pv', nx', rfl⟩ := addNode_relinked h₂
  exact ⟨Go.Map.len_insert (Go.Map.lookup_of_irrefl hk), hkeys₁⟩

theorem run_of_irrefl : forall (ops : List (Op K V)) {c c' : LRUCache K V}, c.NaNKeys ->
    (∀ op ∈ ops, exists k v, op = .put k v ∧ ∀ x, (x == k) = false) -> c.run ops = some c' ->
    c'.size = c.size + ops.length ∧ c'.NaNKeys
  | [], _, _, hkeys, _, h => by cases h; exact ⟨rfl, hkeys⟩
  | op :: ops, c, c', hkeys, hops, h => by
    obtain ⟨k, v, rfl, hk⟩ := hops op (List.mem_cons_self _ _)
    simp only [run, List.foldlM_cons, Option.bind_eq_bind, Option.bind_eq_some] at h
    obtain ⟨c₁, h₁, h'⟩ := h
    obtain ⟨hs₁, hkeys₁⟩ := put_of_irrefl hk hkeys h₁
    obtain ⟨hs, hkeys'⟩ :=
      run_of_irrefl ops hkeys₁ (fun op hop => hops op (List.mem_cons_of_mem _ hop)) h'
    exact ⟨by simp only [hs, hs₁, List.length_cons]; omega, hkeys'⟩

/-- Each `Put` of keys that are `==` to no key raises `Size()` by one, so
`NewLRUCache(1)` after two of them has `Size() = 2`, and `Get` of the key
misses. -/
theorem nan_keys_overfill :
    (forall (c c' : LRUCache K V) (ops : List (Op K V)), c.NaNKeys ->
      (∀ op ∈ ops, exists k v, op = .put k v ∧ ∀ x, (x == k) = false) -> c.run ops = some c' ->
      c'.size = c.size + ops.length) ∧
    forall (k : K) (v v' : V), (∀ x, (x == k) = false) ->
      exists c, start 1 [.put k v, .put k v'] = some c ∧ c.size = 2 ∧
        c.get k = some ((none, false), c) := by
  refine ⟨fun c c' ops hkeys hops h => (run_of_irrefl ops hkeys hops h).1, fun k v v' hk => ?_⟩
  obtain ⟨c, h⟩ : exists c, start 1 [.put k v, .put k v'] = some c := by
    simp [start, run, exec, newLRUCache, put, Go.Map.lookup_of_irrefl hk, alloc, evict, popTail,
      removeNode, addNode, Go.Map.erase_of_irrefl hk,
      Go.Map.len_insert (Go.Map.lookup_of_irrefl hk)]
  refine ⟨c, h, ?_, by simp [LRUCache.get, Go.Map.lookup_of_irrefl hk]⟩
  rw [start, newLRUCache, if_neg (by decide), Option.some_bind] at h
  have hops : ∀ op ∈ [Op.put k v, .put k v'],
      exists k v, op = .put k v ∧ ∀ x, (x == k) = false := by
    simp only [List.mem_cons, List.mem_singleton, List.not_mem_nil, or_false]
    rintro op (rfl | rfl) <;> exact ⟨k, _, rfl, hk⟩
  exact (run_of_irrefl _ (fun _ _ hp => Option.noConfusion hp) hops h).1

/-- A float64 NaN as a map key. -/
structure NaN where

instance : BEq NaN := ⟨fun _ _ => false⟩

theorem nan_keys_overfill_two_puts :
    exists c, start 1 [.put NaN.mk 1, .put NaN.mk 2] = some c ∧ c.size = 2 ∧
      c.get NaN.mk = some ((none, false), c) :=
  nan_keys_overfill.2 NaN.mk (1 : Nat) (2 : Nat) fun _ => rfl

end Irreflexive

end LRUCache
end Lru
