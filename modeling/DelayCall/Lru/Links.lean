import DelayCall.Lru.Cache
import Mathlib.Data.List.Chain
import Mathlib.Data.List.Nodup

/-!
# The linked list between the dummy nodes

`Link c a b` says that `a.Next` is `b` and `b.Prev` is `a`.  In a working
cache the nodes from `head` to `tail` form a chain of such links, with no node
twice.  This module says what `addNode`, `removeNode` and the loop of `Keys`
do to such a chain.  Writes to nodes off the chain leave it alone
(`chain_frame`), and the list operations change nothing but links
(`Relinked`).
-/

namespace Lru
namespace LRUCache

variable {K V : Type} [BEq K] {c c' : LRUCache K V}

/-- `a.Next` is `b` and `b.Prev` is `a`. -/
def Link (c : LRUCache K V) (a b : Nat) : Prop := c.next a = some b ∧ c.prev b = some a

def Relinked (c c' : LRUCache K V) : Prop :=
  exists prev next, c' = { c with prev := prev, next := next }

theorem Relinked.trans {c'' : LRUCache K V} (h : Relinked c c') (h' : Relinked c' c'') :
    Relinked c c'' := by
  obtain ⟨_, _, rfl⟩ := h
  obtain ⟨pv, nx, rfl⟩ := h'
  exact ⟨pv, nx, rfl⟩

theorem addNode_relinked {n : Nat} (h : c.addNode n = some c') : Relinked c c' := by
  simp only [addNode, Option.bind_eq_bind, Option.bind_eq_some, Option.pure_def,
    Option.some.injEq] at h
  obtain ⟨_, _, rfl⟩ := h
  exact ⟨_, _, rfl⟩

theorem removeNode_relinked {n : Nat} (h : c.removeNode n = some c') : Relinked c c' := by
  simp only [removeNode, Option.bind_eq_bind, Option.bind_eq_some, Option.pure_def,
    Option.some.injEq] at h
  obtain ⟨_, _, _, _, rfl⟩ := h
  exact ⟨_, _, rfl⟩

/-- A chain is kept by writes that leave the `Next` of each node but the last,
and the `Prev` of each node but the first, as they were. -/
theorem chain_frame : forall {l : List Nat}, l.Chain' c.Link ->
    (∀ x ∈ l.dropLast, c'.next x = c.next x) ->
    (∀ y ∈ l.tail, c'.prev y = c.prev y) -> l.Chain' c'.Link
  | [], _, _, _ => List.chain'_nil
  | [_], _, _, _ => List.chain'_singleton _
  | a :: b :: l, h, hn, hp => by
    rw [List.chain'_cons] at h ⊢
    refine ⟨⟨(hn a (by simp)).trans h.1.1, (hp b (by simp)).trans h.1.2⟩,
      chain_frame h.2 (fun x hx => hn x ?_) (fun y hy => hp y (List.mem_cons_of_mem b hy))⟩
    rw [List.dropLast_cons₂]
    exact List.mem_cons_of_mem a hx

/-!
# Unlinking and linking a node
-/

theorem removeNode_chain {pre post : List Nat} {p : Nat} (hpre : pre ≠ []) (hpost : post ≠ [])
    (h : (pre ++ p :: post).Chain' c.Link) (hnd : (pre ++ p :: post).Nodup) :
    exists c', c.removeNode p = some c' ∧ (pre ++ post).Chain' c'.Link ∧ Relinked c c' := by
  obtain ⟨pre, P, rfl⟩ := (List.eq_nil_or_concat pre).resolve_left hpre
  obtain ⟨N, post, rfl⟩ := List.exists_cons_of_ne_nil hpost
  rw [List.concat_eq_append] at h hnd ⊢
  rw [List.append_assoc, List.singleton_append, List.chain'_split, List.chain'_cons,
    List.chain'_cons] at h
  obtain ⟨hl, ⟨-, hP⟩, ⟨hN, -⟩, hr⟩ := h
  simp only [List.append_assoc, List.singleton_append, List.nodup_append, List.nodup_cons,
    List.mem_cons, List.disjoint_cons_right, not_or] at hnd
  obtain ⟨-, ⟨⟨hPp, hPN, hPpost⟩, -, hNpost, -⟩, hPpre, -, hNpre, -⟩ := hnd
  refine ⟨(c.setNext P (some N)).setPrev N (some P), by simp [removeNode, hP, hN],
    ?_, ⟨_, _, rfl⟩⟩
  rw [List.append_assoc, List.singleton_append, List.chain'_split, List.chain'_cons]
  refine ⟨chain_frame hl ?_ ?_, ⟨by simp, by simp⟩, chain_frame hr ?_ ?_⟩
  · intro x hx
    rw [List.dropLast_concat] at hx
    exact Function.update_noteq (fun (e : x = P) => hPpre (e ▸ hx)) _ _
  · intro y hy
    have hy' := List.mem_of_mem_tail hy
    simp only [List.mem_append, List.mem_singleton] at hy'
    refine Function.update_noteq (fun e => ?_) _ _
    subst e
    rcases hy' with hy' | rfl
    · exact hNpre hy'
    · exact hPN rfl
  · intro x hx
    refine Function.update_noteq (fun e => ?_) _ _
    subst e
    rcases List.mem_cons.1 (List.dropLast_subset _ hx) with rfl | hx
    · exact hPN rfl
    · exact hPpost hx
  · intro y hy
    exact Function.update_noteq (fun (e : y = N) => hNpost (e ▸ hy)) _ _

theorem addNode_chain {rest : List Nat} {node : Nat} (hrest : rest ≠ [])
    (h : (c.head :: rest).Chain' c.Link) (hnd : (node :: c.head :: rest).Nodup) :
    exists c', c.addNode node = some c' ∧ (c.head :: node :: rest).Chain' c'.Link ∧
      Relinked c c' := by
  obtain ⟨F, rest, rfl⟩ := List.exists_cons_of_ne_nil hrest
  rw [List.chain'_cons] at h
  obtain ⟨⟨hF, -⟩, hr⟩ := h
  simp only [List.nodup_cons, List.mem_cons, not_or] at hnd
  obtain ⟨⟨hnh, hnF, hnr⟩, ⟨hhF, hhr⟩, hFr, -⟩ := hnd
  have hhn : c.head ≠ node := Ne.symm hnh
  have hFn : F ≠ node := Ne.symm hnF
  refine ⟨(((c.setPrev node (some c.head)).setNext node (some F)).setPrev F (some node)).setNext
    c.head (some node), by simp [addNode, hF, Function.update_noteq hhn], ?_, ⟨_, _, rfl⟩⟩
  simp only [List.chain'_cons, Link, setNext_next, setPrev_next, setNext_prev, setPrev_prev]
  refine ⟨by simp [Function.update_noteq hnF], by simp [Function.update_noteq hnh], ?_⟩
  refine chain_frame hr (fun x hx => ?_) (fun y hy => ?_)
  · have hx := List.dropLast_subset _ hx
    have hxh : x ≠ c.head := fun e => by
      subst e
      rcases List.mem_cons.1 hx with e | hx
      · exact hhF e
      · exact hhr hx
    have hxn : x ≠ node := fun e => by
      subst e
      rcases List.mem_cons.1 hx with e | hx
      · exact hnF e
      · exact hnr hx
    simp [Function.update_noteq hxh, Function.update_noteq hxn]
  · have hyF : y ≠ F := fun e => hFr (e ▸ hy)
    have hyn : y ≠ node := fun e => hnr (e ▸ hy)
    simp [Function.update_noteq hyF, Function.update_noteq hyn]

/-!
# The loop of `Keys`
-/

/-- Started after `a` on a chain `a :: (ps ++ [tail])`, the loop of `Keys` reads
the keys of `ps` in order, given more rounds than `ps` has nodes. -/
theorem keysFrom_chain : forall {ps : List Nat} {a fuel : Nat},
    (a :: (ps ++ [c.tail])).Chain' c.Link -> c.tail ∉ ps -> ps.length < fuel ->
    c.keysFrom fuel (c.next a) = some (ps.map c.key)
  | [], a, fuel + 1, h, _, _ => by
    simp [keysFrom, (List.chain'_cons.1 h).1.1]
  | p :: ps, a, fuel + 1, h, ht, hlen => by
    rw [List.cons_append, List.chain'_cons] at h
    have hpt : p ≠ c.tail := fun e => ht (e ▸ List.mem_cons_self p ps)
    have hrest := keysFrom_chain h.2 (fun hm => ht (List.mem_cons_of_mem p hm))
      (Nat.lt_of_succ_lt_succ hlen)
    simp [keysFrom, h.1.1, hpt, hrest]

end LRUCache
end Lru
