import DelayCall.Lru.Links
import DelayCall.Lru.Spec

/-!
# The cache refines its specification

`Repr c ptrs l` says that the cache `c` stores the entries `l`.  `ptrs` are
the nodes between `head` and `tail`, in order, linked both ways and with no
node twice, and the node at the `i`-th of them holds the `i`-th entry.  The
map sends each stored key to its node, and `len(map)` is the number of
entries.

Each operation of the code takes a cache that stores `l` to one that stores
what the specification makes of `l`.  It never follows a nil pointer, and it
returns what the specification returns.  This holds for key types whose `==`
is an equality (`LawfulBEq`): a key that is not `==` to itself, such as a NaN,
is never found in the map, and `Put` then leaves two nodes for it.
-/

namespace Lru
namespace LRUCache

variable {K V : Type} [BEq K]

def Holds (c : LRUCache K V) (p : Nat) (e : K × V) : Prop :=
  c.key p = some e.1 ∧ c.value p = some e.2

/-!
# Nodes and entries
-/

section Holds

variable {c c' : LRUCache K V} {k : K}

theorem holds_split {p : Nat} {ys : List Nat} : forall {xs : List Nat} {l : List (K × V)},
    List.Forall₂ c.Holds (xs ++ p :: ys) l ->
    exists lx e ly, l = lx ++ e :: ly ∧ List.Forall₂ c.Holds xs lx ∧ c.Holds p e ∧
      List.Forall₂ c.Holds ys ly
  | [], _, .cons h hs => ⟨[], _, _, rfl, .nil, h, hs⟩
  | _ :: _, _, .cons h hs =>
    let ⟨lx, e, ly, he, hx, hp, hy⟩ := holds_split hs
    ⟨_ :: lx, e, ly, he ▸ rfl, .cons h hx, hp, hy⟩

theorem holds_frame : forall {ps : List Nat} {l : List (K × V)}, List.Forall₂ c.Holds ps l ->
    (∀ p ∈ ps, c'.key p = c.key p ∧ c'.value p = c.value p) -> List.Forall₂ c'.Holds ps l
  | _, _, .nil, _ => .nil
  | p :: _, _, .cons h hs, hf => by
    have hp := hf p (List.mem_cons_self _ _)
    exact .cons (by rw [Holds, hp.1, hp.2]; exact h)
      (holds_frame hs fun q hq => hf q (List.mem_cons_of_mem _ hq))

theorem holds_keys : forall {ps : List Nat} {l : List (K × V)}, List.Forall₂ c.Holds ps l ->
    ps.map c.key = l.map fun e => some e.1
  | _, _, .nil => rfl
  | _, _, .cons h hs => by simp [h.1, holds_keys hs]

theorem holds_mem_key {ps : List Nat} {l : List (K × V)} (h : List.Forall₂ c.Holds ps l) :
    (exists p, p ∈ ps ∧ c.key p = some k) ↔ k ∈ l.map Prod.fst := by
  have := congrArg (some k ∈ ·) (holds_keys h)
  rw [Iff.comm]
  simpa [eq_comm] using this

end Holds

/-- The map sends each key to the node of the list that holds it. -/
def Indexes (c : LRUCache K V) (ptrs : List Nat) : Prop :=
  forall k p, c.cache.lookup k = some p ↔ p ∈ ptrs ∧ c.key p = some k

/-- `c` stores the entries `l` in the nodes `ptrs`, from `head` to `tail`. -/
structure Repr (c : LRUCache K V) (ptrs : List Nat) (l : List (K × V)) : Prop where
  chain : (c.head :: (ptrs ++ [c.tail])).Chain' c.Link
  nodup : (c.head :: (ptrs ++ [c.tail])).Nodup
  allocated : ∀ p ∈ c.head :: (ptrs ++ [c.tail]), p < c.fresh
  holds : List.Forall₂ c.Holds ptrs l
  index : c.Indexes ptrs
  size : c.cache.len = l.length
  spec : Spec.Ok c.capacity.toNat l
  pos : 0 < c.capacity

/-!
# Lookups in the map
-/

section Lookup

variable {c : LRUCache K V} {ptrs : List Nat} {l : List (K × V)} {k : K}

theorem Repr.lookup_eq_none (h : Repr c ptrs l) :
    c.cache.lookup k = none ↔ k ∉ l.map Prod.fst := by
  rw [← holds_mem_key h.holds, Option.eq_none_iff_forall_not_mem]
  simp [Option.mem_def, h.index k]

variable [DecidableEq K]

theorem Repr.find_eq_none (h : Repr c ptrs l) :
    Spec.find l k = none ↔ c.cache.lookup k = none := by
  rw [Spec.find_eq_none, h.lookup_eq_none]

theorem Repr.lookup_some {p : Nat} (h : Repr c ptrs l) (hp : c.cache.lookup k = some p) :
    exists v, c.value p = some v ∧ Spec.find l k = some v := by
  obtain ⟨hmem, hkey⟩ := (h.index k p).1 hp
  obtain ⟨xs, ys, rfl⟩ := List.append_of_mem hmem
  obtain ⟨lx, ⟨k', v₀⟩, ly, rfl, -, ⟨hk', hv₀⟩, -⟩ := holds_split h.holds
  obtain rfl : k' = k := Option.some.inj (hk'.symm.trans hkey)
  exact ⟨v₀, hv₀, (Spec.find_eq_some h.spec.nodup).2 (by simp)⟩

end Lookup

/-!
# Moving a node to the front
-/

section Move

variable [DecidableEq K] {c : LRUCache K V} {ptrs : List Nat} {l : List (K × V)} {k : K} {v : V}
  {p : Nat}

/-- Setting the value of a stored key's node to `v`, then moving the node to
the front, stores `touch l k v`.  This is `Get` and `Put` on a stored key. -/
theorem Repr.moveToHead (h : Repr c ptrs l) (hp : c.cache.lookup k = some p)
    {f : Nat -> Option V} (hf : ∀ q, q ≠ p -> f q = c.value q) (hv : f p = some v) :
    exists c' ptrs', ({ c with value := f } : LRUCache K V).moveToHead p = some c' ∧
      Repr c' ptrs' (Spec.touch l k v) ∧ c'.value p = some v ∧ c'.capacity = c.capacity := by
  obtain ⟨hmem, hkey⟩ := (h.index k p).1 hp
  obtain ⟨xs, ys, rfl⟩ := List.append_of_mem hmem
  obtain ⟨lx, ⟨k', v₀⟩, ly, rfl, hx, ⟨hk', -⟩, hy⟩ := holds_split h.holds
  obtain rfl : k' = k := Option.some.inj (hk'.symm.trans hkey)
  have hperm : List.Perm (c.head :: (xs ++ p :: ys ++ [c.tail]))
      (c.head :: p :: (xs ++ ys ++ [c.tail])) := by
    simp [List.perm_middle]
  have hnd := (hperm.trans (List.Perm.swap p c.head _)).nodup_iff.1 h.nodup
  have hne : ∀ q ∈ xs ++ ys, q ≠ p := fun q hq e =>
    (List.nodup_cons.1 hnd).1 (List.mem_cons_of_mem _ (List.mem_append_left _ (e ▸ hq)))
  have hS : c.head :: (xs ++ p :: ys ++ [c.tail]) = (c.head :: xs) ++ p :: (ys ++ [c.tail]) := by
    simp
  obtain ⟨c₁, h₁, hc₁, ⟨pv₁, nx₁, rfl⟩⟩ := removeNode_chain (c := { c with value := f })
    (List.cons_ne_nil _ _) (by simp) (hS ▸ h.chain) (hS ▸ h.nodup)
  obtain ⟨c₂, h₂, hc₂, ⟨pv₂, nx₂, rfl⟩⟩ :=
    addNode_chain (c := { { c with value := f } with prev := pv₁, next := nx₁ })
      (by simp) (by simpa using hc₁) hnd
  refine ⟨{ c with value := f, prev := pv₂, next := nx₂ }, p :: (xs ++ ys),
    by simp [moveToHead, h₁, h₂], ⟨?_, ?_, ?_, ?_, ?_, ?_, ?_, h.pos⟩, hv, rfl⟩
  · simpa using hc₂
  · simpa using hperm.nodup_iff.1 h.nodup
  · intro q hq
    exact h.allocated q (hperm.mem_iff.2 (by simpa using hq))
  · rw [Spec.touch_split h.spec.nodup]
    exact .cons ⟨hkey, hv⟩
      (holds_frame (List.rel_append hx hy) fun q hq => ⟨rfl, hf q (hne q hq)⟩)
  · intro k' q
    simpa [or_left_comm] using h.index k' q
  · simp [h.size, Spec.touch_split h.spec.nodup]
    omega
  · exact h.spec.touch (by simp)

end Move

/-!
# Adding a node, and evicting one
-/

section Put

variable {c : LRUCache K V} {ptrs : List Nat} {l : List (K × V)} {k : K} {v : V}

theorem Repr.alloc (h : Repr c ptrs l) (k : K) (v : V) : Repr (c.alloc k v) ptrs l := by
  have hne : ∀ q ∈ c.head :: (ptrs ++ [c.tail]), q ≠ c.fresh := fun q hq =>
    (h.allocated q hq).ne
  have hne' : ∀ q ∈ ptrs, q ≠ c.fresh := fun q hq => hne q (by simp [hq])
  refine ⟨chain_frame h.chain (fun x hx => ?_) (fun y hy => ?_), h.nodup,
    fun q hq => Nat.lt_succ_of_lt (h.allocated q hq), holds_frame h.holds fun q hq => ?_,
    fun k' q => ?_, h.size, h.spec, h.pos⟩
  · exact Function.update_noteq (hne x (List.dropLast_subset _ hx)) _ _
  · exact Function.update_noteq (hne y (List.mem_of_mem_tail hy)) _ _
  · exact ⟨Function.update_noteq (hne' q hq) _ _, Function.update_noteq (hne' q hq) _ _⟩
  · rw [show (c.alloc k v).cache = c.cache from rfl, h.index k' q]
    exact and_congr_right fun hq => by rw [show (c.alloc k v).key q = c.key q from
      Function.update_noteq (hne' q hq) _ _]

variable [LawfulBEq K]

theorem Repr.evict (h : Repr c ptrs l) (hfull : c.capacity.toNat ≤ l.length) :
    exists prev next m, c.evict = some { c with prev := prev, next := next, cache := m } ∧
      Repr { c with prev := prev, next := next, cache := m } ptrs.dropLast l.dropLast := by
  have hne : ptrs ≠ [] := by
    rintro rfl
    have hl : l = [] := List.forall₂_nil_left_iff.1 h.holds
    have := h.pos
    simp [hl] at hfull
    omega
  obtain ⟨xs, p, rfl⟩ := (List.eq_nil_or_concat ptrs).resolve_left hne
  rw [List.concat_eq_append] at h ⊢
  obtain ⟨lx, ⟨kt, vt⟩, ly, rfl, hx, ⟨hkt, -⟩, hy⟩ := holds_split h.holds
  cases hy
  have hS : c.head :: (xs ++ [p] ++ [c.tail]) = (c.head :: xs) ++ p :: [c.tail] := by simp
  have hnd := List.nodup_middle.1 (hS ▸ h.nodup)
  have hprev : c.prev c.tail = some p :=
    (List.chain'_pair.1 (List.chain'_split.1 (hS ▸ h.chain)).2).2
  obtain ⟨c₁, h₁, hc₁, ⟨pv, nx, rfl⟩⟩ :=
    removeNode_chain (List.cons_ne_nil _ _) (List.cons_ne_nil _ _) (hS ▸ h.chain) (hS ▸ h.nodup)
  have hpt : c.cache.lookup kt = some p := (h.index kt p).2 ⟨by simp, hkt⟩
  refine ⟨pv, nx, c.cache.erase kt, by simp [evict, popTail, hprev, h₁, hkt], ?_⟩
  rw [List.dropLast_concat, List.dropLast_concat]
  refine ⟨by simpa using hc₁, by simpa using hnd.of_cons, fun q hq => h.allocated q ?_, hx,
    fun k' q => ?_, ?_, ?_, h.pos⟩
  · simp only [List.mem_cons, List.mem_append, List.mem_singleton] at hq ⊢
    tauto
  · have hpx : p ∉ xs := fun hm => (List.nodup_cons.1 hnd).1 (by simp [hm])
    by_cases hk : k' = kt
    · subst hk
      simp only [Go.Map.lookup_erase]
      refine ⟨fun e => Option.noConfusion e, fun ⟨hq, hkq⟩ => ?_⟩
      have : q = p := Option.some.inj (((h.index k' q).2 ⟨by simp [hq], hkq⟩).symm.trans hpt)
      exact absurd (this ▸ hq) hpx
    · simp only [Go.Map.lookup_erase_ne (Ne.symm hk), h.index k' q, List.mem_append,
        List.mem_singleton]
      constructor
      · rintro ⟨hq | rfl, hkq⟩
        · exact ⟨hq, hkq⟩
        · exact absurd (Option.some.inj (hkq.symm.trans hkt)) hk
      · exact fun ⟨hq, hkq⟩ => ⟨Or.inl hq, hkq⟩
  · have hlen : (c.cache.erase kt).len + 1 = c.cache.len := Go.Map.len_erase (by simp [hpt])
    have := h.size
    simp only [List.length_append, List.length_singleton] at this ⊢
    omega
  · have := h.spec.bounded
    simp only [List.length_append, List.length_singleton] at this
    exact ⟨h.spec.nodup.sublist (by simp), by simp only; omega⟩

theorem Repr.addNew (h : Repr c ptrs l) {n : Nat} (hn : n ∉ c.head :: (ptrs ++ [c.tail]))
    (hnf : n < c.fresh) (hkn : c.key n = some k) (hvn : c.value n = some v)
    (hk : c.cache.lookup k = none) (hroom : l.length < c.capacity.toNat) :
    exists prev next, c.addNode n = some { c with prev := prev, next := next } ∧
      Repr { c with prev := prev, next := next, cache := c.cache.insert k n }
        (n :: ptrs) ((k, v) :: l) := by
  obtain ⟨c₁, h₁, hc₁, ⟨pv, nx, rfl⟩⟩ :=
    addNode_chain (by simp) h.chain (List.nodup_cons.2 ⟨hn, h.nodup⟩)
  refine ⟨pv, nx, h₁, ⟨hc₁, (List.Perm.swap c.head n _).nodup_iff.1
    (List.nodup_cons.2 ⟨hn, h.nodup⟩), fun q hq => ?_, .cons ⟨hkn, hvn⟩ h.holds,
    fun k' q => ?_, ?_, ?_, h.pos⟩⟩
  · simp only [List.cons_append, List.mem_cons] at hq
    rcases hq with rfl | rfl | hq
    · exact h.allocated _ (List.mem_cons_self _ _)
    · exact hnf
    · exact h.allocated q (List.mem_cons_of_mem _ hq)
  · have hnp : n ∉ ptrs := fun hm => hn (by simp [hm])
    by_cases hk' : k' = k
    · subst hk'
      simp only [Go.Map.lookup_insert, Option.some.injEq, List.mem_cons]
      constructor
      · rintro rfl
        exact ⟨Or.inl rfl, hkn⟩
      · rintro ⟨rfl | hq, hkq⟩
        · rfl
        · simp [(h.index k' q).2 ⟨hq, hkq⟩] at hk
    · simp only [Go.Map.lookup_insert_ne (Ne.symm hk'), h.index k' q, List.mem_cons]
      constructor
      · exact fun ⟨hq, hkq⟩ => ⟨Or.inr hq, hkq⟩
      · rintro ⟨rfl | hq, hkq⟩
        · exact absurd (Option.some.inj (hkn.symm.trans hkq)) (Ne.symm hk')
        · exact ⟨hq, hkq⟩
  · simp [Go.Map.len_insert hk, h.size]
  · exact ⟨List.nodup_cons.2 ⟨h.lookup_eq_none.1 hk, h.spec.nodup⟩, by simp; omega⟩

end Put

/-!
# The operations
-/

section Operations

variable {c : LRUCache K V} {ptrs : List Nat} {l : List (K × V)}

theorem Repr.clear (h : Repr c ptrs l) : Repr c.clear [] [] := by
  have hht : c.head ≠ c.tail := fun e => by
    have := h.nodup
    simp [e] at this
  refine ⟨?_, ?_, ?_, .nil, fun k p => ?_, rfl, ⟨List.nodup_nil, Nat.zero_le _⟩, h.pos⟩
  · simp [LRUCache.clear, Link, hht]
  · simpa [LRUCache.clear] using hht
  · simp only [LRUCache.clear, setPrev_head, setNext_head, setPrev_tail, setNext_tail,
      setPrev_fresh, setNext_fresh, List.nil_append]
    exact fun q hq => h.allocated q (by simp at hq ⊢; tauto)
  · simp [LRUCache.clear]

theorem Repr.keys (h : Repr c ptrs l) {fuel : Nat} (hfuel : c.size < fuel) :
    c.keys fuel = some (l.map fun e => some e.1) := by
  have hlen : ptrs.length < fuel := by
    rw [h.holds.length_eq, ← h.size]
    exact hfuel
  have ht : c.tail ∉ ptrs := fun hm =>
    (List.nodup_append.1 (List.nodup_cons.1 h.nodup).2).2.2 hm (List.mem_singleton_self _)
  rw [LRUCache.keys, keysFrom_chain h.chain ht hlen, holds_keys h.holds]

theorem Repr.size_le (h : Repr c ptrs l) : (c.size : Int) ≤ c.capacity := by
  have := h.spec.bounded
  have := Int.toNat_of_nonneg h.pos.le
  rw [LRUCache.size, h.size]
  omega

variable [DecidableEq K]

theorem Repr.get (h : Repr c ptrs l) (k : K) :
    exists c' ptrs', c.get k = some (((Spec.get l k).1, (Spec.get l k).1.isSome), c') ∧
      Repr c' ptrs' (Spec.get l k).2 ∧ c'.capacity = c.capacity := by
  cases hl : c.cache.lookup k with
  | none =>
    have hf := h.find_eq_none.2 hl
    exact ⟨c, ptrs, by simp [LRUCache.get, hl, Spec.get, hf], by simpa [Spec.get, hf] using h, rfl⟩
  | some p =>
    obtain ⟨v, hv, hf⟩ := h.lookup_some hl
    obtain ⟨c', ptrs', hm, hr, hv', hcap⟩ := h.moveToHead hl (fun _ _ => rfl) hv
    have hm : c.moveToHead p = some c' := hm
    exact ⟨c', ptrs', by simp [LRUCache.get, hl, hm, hv', Spec.get, hf],
      by simpa [Spec.get, hf] using hr, hcap⟩

variable [LawfulBEq K]

theorem Repr.put (h : Repr c ptrs l) (k : K) (v : V) :
    exists c' ptrs', c.put k v = some c' ∧ Repr c' ptrs' (Spec.put c.capacity.toNat l k v) ∧
      c'.capacity = c.capacity := by
  have hcap := Int.toNat_of_nonneg h.pos.le
  cases hl : c.cache.lookup k with
  | some p =>
    obtain ⟨v₀, -, hf⟩ := h.lookup_some hl
    obtain ⟨c', ptrs', hm, hr, -, hc'⟩ := h.moveToHead hl
      (fun q hq => Function.update_noteq hq (some v) c.value) (Function.update_same p (some v) _)
    exact ⟨c', ptrs', by simp [LRUCache.put, hl, hm], by simpa [Spec.put, hf] using hr, hc'⟩
  | none =>
    have hf := h.find_eq_none.2 hl
    have hn : c.fresh ∉ c.head :: (ptrs ++ [c.tail]) := fun hm => lt_irrefl _ (h.allocated _ hm)
    have hcond : ((c.alloc k v).cache.len : Int) ≥ (c.alloc k v).capacity ↔
        c.capacity.toNat ≤ l.length := by
      show (c.cache.len : Int) ≥ c.capacity ↔ _
      rw [h.size]
      omega
    have hkey : (c.alloc k v).key c.fresh = some k := Function.update_same _ _ _
    have hval : (c.alloc k v).value c.fresh = some v := Function.update_same _ _ _
    by_cases hfull : c.capacity.toNat ≤ l.length
    · obtain ⟨pv, nx, m, he, hr⟩ := (h.alloc k v).evict hfull
      have hl' : l ≠ [] := by
        rintro rfl
        have := h.pos
        simp at hfull
        omega
      have hroom : l.dropLast.length < c.capacity.toNat := by
        have := h.spec.bounded
        have := List.length_pos.2 hl'
        simp only [List.length_dropLast]
        omega
      obtain ⟨pv', nx', h₂, hr₂⟩ := hr.addNew (n := c.fresh)
        (fun hm => hn ((((List.dropLast_sublist ptrs).append_right _).cons₂ _).subset hm))
        (Nat.lt_succ_self _) hkey hval
        (hr.lookup_eq_none.2 fun hm => h.lookup_eq_none.1 hl (List.map_subset _
          (List.dropLast_subset l) hm)) hroom
      rw [show Spec.put c.capacity.toNat l k v = (k, v) :: l.dropLast by simp [Spec.put, hf, hfull]]
      exact ⟨_, _, by simp [LRUCache.put, hl, hcond.2 hfull, he, h₂], hr₂, rfl⟩
    · obtain ⟨pv, nx, h₂, hr₂⟩ := (h.alloc k v).addNew (n := c.fresh) hn (Nat.lt_succ_self _)
        hkey hval hl (by have := h.spec.bounded; show l.length < c.capacity.toNat; omega)
      rw [show Spec.put c.capacity.toNat l k v = (k, v) :: l by simp [Spec.put, hf, hfull]]
      exact ⟨_, _, by simp [LRUCache.put, hl, (not_congr hcond).2 hfull, h₂], hr₂, rfl⟩

end Operations

theorem newLRUCache_repr {capacity : Int} (hpos : 0 < capacity) :
    exists c : LRUCache K V, newLRUCache capacity = some c ∧ Repr c [] [] ∧
      c.capacity = capacity := by
  rw [newLRUCache, if_neg (not_le.2 hpos)]
  refine ⟨_, rfl, ⟨?_, ?_, ?_, .nil, fun k p => ?_, rfl, ⟨List.nodup_nil, Nat.zero_le _⟩, hpos⟩,
    rfl⟩
  · simp [Link]
  · simp
  · simp
  · simp

end LRUCache
end Lru
