import DelayCall.Observer.Snapshot

/-!
# An `Unsubscribe` during a `Notify`

`Notify` releases the read lock before it ranges over the slice it copied.
`Unsubscribe`'s `append(observers[:i], observers[i+1:]...)` writes into the
same backing array.  So an `Unsubscribe` that runs while a `Notify` of the
same event type ranges races with it.  Suppose the `Unsubscribe` runs right
after the `Notify` copied the header, and the observer it removes is not the
last.  Then the `Notify` reaches the observers that the `Unsubscribe` leaves,
and the last observer a second time: its header still has the old length, and
the last cell of that range still holds the last observer
(`unsubscribe_during_notify`).

In the program's advanced scenario, six observers subscribe to
`price_update`.  Unsubscribing `sms1` during a `Notify` makes `db1` get the
event twice (`advanced_scenario_races`).
-/

namespace ObserverDemo

open EventDispatcher

/-- An `Unsubscribe` of an observer other than the last, right after a
`Notify` of the same event type copied the header, races with it, and the
`Notify` then reaches the observers the `Unsubscribe` leaves and the last one
again. -/
theorem unsubscribe_during_notify (moves : List Move) (ed : EventDispatcher) (e : Event)
    (o : Observer) (h : run newEventDispatcher moves = some ed)
    (hi : (Registry.empty.run moves e.type).findIdx (fun x => x.id == o.id) + 1 <
      (Registry.empty.run moves e.type).length) :
    exists ed', run ed (.notify e :: .unsubscribe e.type o ::
        List.replicate (Registry.empty.run moves e.type).length (.update ed.notifies.length)) =
          some ed' ∧
      ed'.raced = true ∧
      ed'.notifies[ed.notifies.length]?.map NotifyCall.updated =
        some ((Registry.empty.run moves e.type).eraseP (fun x => x.id == o.id) ++
          (Registry.empty.run moves e.type).getLast?.toList) := by
  have hR₀ := Holds.init.run moves h
  have hR := hR₀.notify e
  generalize Registry.empty.run moves = R at hR₀ hR hi ⊢
  set s := lookup ed.observers e.type with hs
  set i := (R e.type).findIdx fun x => x.id == o.id with hi_def
  have hlen : s.len = (R e.type).length := hR₀.len_eq e.type
  have hel : ed.elems s = (R e.type).map some := hR₀.elems e.type
  have hle : s.len ≤ s.cap := hR₀.len_le e.type
  have hlt : i < s.len := by omega
  obtain ⟨ha, hcap⟩ : s.array < ed.heap.length ∧ (ed.array s.array).length = s.cap :=
    hR₀.array e.type (by rw [← hs]; omega)
  have hl : s.len ≤ (ed.array s.array).length := hcap ▸ hle
  have hidx : indexOfID o.id (ed.elems s) = some i := by
    rw [hel]
    exact indexOfID_of_findIdx (by omega)
  have hunsub : (ed.notify e).unsubscribe e.type o = { ed.notify e with
      heap := ed.heap.set s.array (removeAt (ed.array s.array) i s.len)
      observers := (e.type, { s with len := s.len - 1 }) :: ed.observers
      raced := ed.raced || (ed.notify e).racesOn s.array i (s.len - 1)
      racedCalls := ed.racedCalls ++ (ed.notify e).racedWith s.array i (s.len - 1) } :=
    unsubscribe_of_index hidx
  -- the `Notify` still ranges over the cells the `Unsubscribe` moves
  have hraces : (ed.notify e).racesOn s.array i (s.len - 1) = true := by
    simp only [racesOn, List.any_eq_true]
    exact ⟨⟨e, s, 0, []⟩, by simp [EventDispatcher.notify], by simp [NotifyCall.meets]; omega⟩
  -- what the copied header reads after the `Unsubscribe`
  have hlast : (ed.array s.array)[s.len - 1]?.toList =
      ((R e.type).getLast?.toList).map some := by
    have hget := congrArg (·[s.len - 1]?) hel
    simp only [EventDispatcher.elems, List.getElem?_take, List.getElem?_map] at hget
    rw [if_pos (by omega)] at hget
    rw [hget, List.getLast?_eq_getElem?, ← hlen]
    cases (R e.type)[s.len - 1]? <;> rfl
  have hread : ((ed.notify e).unsubscribe e.type o).elems s =
      ((R e.type).eraseP (fun x => x.id == o.id) ++ (R e.type).getLast?.toList).map some := by
    rw [hunsub, EventDispatcher.elems, array_set_heap ha, if_pos rfl, take_removeAt_len hlt hl,
      hlast, List.map_append, ← indexOfID_map_some (hel ▸ hidx), ← hel]
    rfl
  have ht : NotifyCall.Tracks ⟨e, s, 0, []⟩ ((ed.notify e).unsubscribe e.type o)
      ((R e.type).eraseP (fun x => x.id == o.id) ++ (R e.type).getLast?.toList) := by
    refine ⟨?_, rfl, fun _ => hread⟩
    have := congrArg List.length hread
    rw [hunsub, EventDispatcher.elems, array_set_heap ha, if_pos rfl, List.length_take,
      length_removeAt hlt hl, List.length_map] at this
    dsimp only
    omega
  have hn : ((ed.notify e).unsubscribe e.type o).notifies[ed.notifies.length]? =
      some ⟨e, s, 0, []⟩ := by
    simp [EventDispatcher.notify]
  have hrun := ht.run_updates _ ed.notifies.length (R e.type).length hn (by dsimp only; omega)
  refine ⟨_, by simpa only [run_cons, step, Option.some_bind] using hrun, ?_, ?_⟩
  · rw [hunsub]
    simp [hraces]
  · simp [EventDispatcher.notify]

theorem advanced_scenario_races :
    exists ed, run newEventDispatcher advancedSubscribes = some ed ∧
      exists ed', run ed (.notify ⟨"price_update"⟩ :: .unsubscribe "price_update" ⟨2, "sms1"⟩ ::
        List.replicate 6 (.update 0)) = some ed' ∧ ed'.raced = true ∧
      ed'.notifies[0]?.map NotifyCall.updated = some [⟨0, "email1"⟩, ⟨1, "email2"⟩,
        ⟨3, "sms2"⟩, ⟨4, "logger1"⟩, ⟨5, "db1"⟩, ⟨5, "db1"⟩] :=
  ⟨_, rfl, unsubscribe_during_notify advancedSubscribes _ ⟨"price_update"⟩ ⟨2, "sms1"⟩ rfl
    (by decide)⟩

end ObserverDemo
