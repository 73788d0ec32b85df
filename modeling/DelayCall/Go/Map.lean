import Mathlib.Data.List.Basic

/-!
# Go maps

A map is the list of its entries.  Go compares keys with the key type's `==`,
here a `BEq` that need not be lawful: a float NaN is `==` to nothing, so a
lookup of it finds nothing, each assignment to it adds an entry, and deleting
it does nothing.  No two entries have keys that are `==`.  Assigning to a key
already present keeps the stored key and replaces its value.  A key whose
dynamic type cannot be hashed makes Go panic; such keys are left out.

The lemmas about lookups hold for key types whose `==` is an equality
(`LawfulBEq`), as it is for strings and integers.
-/

namespace Go

/-- A Go map, with no two keys `==`. -/
structure Map (K V : Type) [BEq K] where
  entries : List (K × V)
  distinct : entries.Pairwise fun a b => (a.1 == b.1) = false

namespace Map

variable {K V : Type} [BEq K]

@[simp] theorem replace_fst (e : K × V) (k : K) (v : V) :
    (if e.1 == k then (e.1, v) else e).1 = e.1 := by
  split <;> rfl

theorem distinct_replace {l : List (K × V)} (hl : l.Pairwise fun a b => (a.1 == b.1) = false)
    (k : K) (v : V) :
    (l.map fun e => if e.1 == k then (e.1, v) else e).Pairwise fun a b => (a.1 == b.1) = false :=
  List.pairwise_map.2 <| hl.imp fun hab => by rwa [replace_fst, replace_fst]

theorem distinct_append {l : List (K × V)} (hl : l.Pairwise fun a b => (a.1 == b.1) = false)
    {k : K} (hk : ¬(l.any fun e => e.1 == k) = true) (v : V) :
    (l ++ [(k, v)]).Pairwise fun a b => (a.1 == b.1) = false :=
  List.pairwise_append.2 ⟨hl, List.pairwise_singleton _ _, fun a ha b hb => by
    rw [List.mem_singleton.1 hb]
    exact Bool.eq_false_iff.2 (List.any_eq_false.1 (Bool.eq_false_iff.2 hk) a ha)⟩

/-- `make(map[K]V)`. -/
def empty : Map K V := ⟨[], .nil⟩

/-- `v, ok := m[k]`, with `none` for `ok = false`. -/
def lookup (m : Map K V) (k : K) : Option V :=
  (m.entries.find? fun e => e.1 == k).map Prod.snd

/-- `m[k] = v`. -/
def insert (m : Map K V) (k : K) (v : V) : Map K V :=
  if h : m.entries.any (fun e => e.1 == k) then
    ⟨m.entries.map fun e => if e.1 == k then (e.1, v) else e, distinct_replace m.distinct k v⟩
  else ⟨m.entries ++ [(k, v)], distinct_append m.distinct h v⟩

/-- `delete(m, k)`. -/
def erase (m : Map K V) (k : K) : Map K V :=
  ⟨m.entries.eraseP fun e => e.1 == k, m.distinct.sublist (List.eraseP_sublist _)⟩

/-- `len(m)`. -/
def len (m : Map K V) : Nat := m.entries.length

@[simp] theorem lookup_empty (k : K) : (empty : Map K V).lookup k = none := rfl

@[simp] theorem len_empty : (empty : Map K V).len = 0 := rfl

section Lookup

variable {m : Map K V} {k k' : K} {v : V}

theorem lookup_eq_none : m.lookup k = none ↔ (m.entries.any fun e => e.1 == k) = false := by
  rw [lookup, Option.map_eq_none', List.find?_eq_none, List.any_eq_false]

@[simp] theorem erase_entries : (m.erase k).entries = m.entries.eraseP (·.1 == k) := rfl

/-- An assignment to a key the map does not find adds an entry, whatever the
key type's `==`. -/
theorem len_insert (h : m.lookup k = none) : (m.insert k v).len = m.len + 1 := by
  have : ¬(m.entries.any fun e => e.1 == k) = true := by simp [lookup_eq_none.1 h]
  simp [insert, this, len]

/-- A key that is `==` to no key, as a NaN is, is never found. -/
theorem lookup_of_irrefl (hk : ∀ x, (x == k) = false) : m.lookup k = none :=
  lookup_eq_none.2 (List.any_eq_false.2 fun e _ => by simp [hk])

theorem erase_of_irrefl (hk : ∀ x, (x == k) = false) : m.erase k = m := by
  cases m
  simp only [erase, Map.mk.injEq]
  exact List.eraseP_of_forall_not fun e _ => by simp [hk]

variable [LawfulBEq K]

theorem erase_split (h : m.lookup k ≠ none) :
    exists l₁ a l₂, m.entries = l₁ ++ a :: l₂ ∧ a.1 = k ∧
      (∀ e ∈ l₁ ++ l₂, e.1 ≠ k) ∧ (m.erase k).entries = l₁ ++ l₂ := by
  rw [Ne, lookup_eq_none, Bool.not_eq_false, List.any_eq_true] at h
  obtain ⟨e, he, hek⟩ := h
  obtain ⟨a, l₁, l₂, h₁, ha, hl, he'⟩ :=
    @List.exists_of_eraseP _ (fun e : K × V => e.1 == k) _ _ he hek
  have hd := m.distinct
  rw [hl, List.pairwise_append, List.pairwise_cons] at hd
  have ha : a.1 = k := beq_iff_eq.1 ha
  refine ⟨l₁, a, l₂, hl, ha, fun e he => ?_, he'⟩
  rcases List.mem_append.1 he with he | he
  · exact fun h => h₁ e he (beq_iff_eq.2 h)
  · exact Ne.symm (ha ▸ beq_eq_false_iff_ne.1 (hd.2.1.1 e he))

@[simp] theorem lookup_insert : (m.insert k v).lookup k = some v := by
  unfold insert
  split
  case isTrue h =>
    obtain ⟨e, hfind⟩ := Option.isSome_iff_exists.1 (List.find?_isSome.2 (List.any_eq_true.1 h))
    have hfk := List.find?_some hfind
    have hek : e.1 = k := beq_iff_eq.1 hfk
    simp only [lookup, List.find?_map, Function.comp_def, replace_fst, hfind]
    simp [hek]
  case isFalse h =>
    have hnone : (m.entries.find? fun e => e.1 == k) = none :=
      List.find?_eq_none.2 (List.any_eq_false.1 (Bool.eq_false_iff.2 h))
    simp [lookup, hnone]

theorem lookup_insert_ne (h : k ≠ k') : (m.insert k v).lookup k' = m.lookup k' := by
  unfold insert
  split
  case isTrue =>
    simp only [lookup, List.find?_map, Function.comp_def, replace_fst, Option.map_map]
    cases hf : m.entries.find? (fun e => e.1 == k') with
    | none => rfl
    | some e =>
      have hfk := List.find?_some hf
      have hek' : e.1 = k' := beq_iff_eq.1 hfk
      have : (e.1 == k) = false := beq_eq_false_iff_ne.2 (hek' ▸ h.symm)
      simp [this]
  case isFalse => simp [lookup, h]

@[simp] theorem lookup_erase : (m.erase k).lookup k = none := by
  rw [lookup_eq_none, List.any_eq_false]
  by_cases h : m.lookup k = none
  case pos =>
    rw [lookup_eq_none, List.any_eq_false] at h
    exact fun e he => h e ((List.eraseP_sublist _).subset he)
  case neg =>
    obtain ⟨l₁, a, l₂, -, -, hne, he⟩ := erase_split h
    rw [he]
    exact fun e he h => hne e he (beq_iff_eq.1 h)

theorem lookup_erase_ne (h : k ≠ k') : (m.erase k).lookup k' = m.lookup k' := by
  by_cases hk : m.lookup k = none
  case pos =>
    simp only [lookup, erase_entries,
      List.eraseP_of_forall_not (List.any_eq_false.1 (lookup_eq_none.1 hk))]
  case neg =>
    obtain ⟨l₁, a, l₂, hm, ha, -, he⟩ := erase_split hk
    simp only [lookup, he]
    simp [hm, ha, h]

theorem len_erase (h : m.lookup k ≠ none) : (m.erase k).len + 1 = m.len := by
  obtain ⟨l₁, a, l₂, hm, -, -, he⟩ := erase_split h
  simp only [len, he, hm, List.length_append, List.length_cons]
  omega

end Lookup

end Map

end Go
