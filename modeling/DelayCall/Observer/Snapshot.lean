import DelayCall.Observer.Registry

/-!
# What a `Notify` reaches

A `Notify` reaches the observers that its copied header reads, one iteration
at a time.  When no writer races with it, the cells its header reads stay as
they were when it copied the header, whatever races other calls take part
in.  So it reaches exactly the observers subscribed to its event type at that
moment, in their order (`notify_snapshot`).  Calls made one after another, as
the program's `main` makes them, never race.  Every `Notify` among them reaches the observers of
the registry at its call (`runCalls_refines`).
-/

namespace ObserverDemo

open EventDispatcher

/-- `Notify` call `n` has updated the first observers of `L`, and while it
still ranges, its header reads `L`. -/
structure NotifyCall.Tracks (n : NotifyCall) (ed : EventDispatcher) (L : List Observer) :
    Prop where
  len : n.observers.len = L.length
  updated : n.updated = L.take n.next
  elems : n.next < n.observers.len -> ed.elems n.observers = L.map some

variable {R : Registry} {ed ed' : EventDispatcher} {n : NotifyCall} {L : List Observer}
  {g : Nat}

namespace NotifyCall.Tracks

theorem cell (ht : n.Tracks ed L) (hlt : n.next < n.observers.len) :
    exists o, L[n.next]? = some o ∧ (ed.array n.observers.array)[n.next]? = some (some o) := by
  have hl : n.next < L.length := ht.len ▸ hlt
  refine ⟨L[n.next], List.getElem?_eq_getElem hl, ?_⟩
  have := congrArg (·[n.next]?) (ht.elems hlt)
  simpa [EventDispatcher.elems, List.getElem?_take, hlt, hl] using this

theorem update {o : Observer} (ht : n.Tracks ed L) (hlt : n.next < n.observers.len)
    (ho : (ed.array n.observers.array)[n.next]? = some (some o)) (ns : List NotifyCall) :
    NotifyCall.Tracks { n with next := n.next + 1, updated := n.updated ++ [o] }
      { ed with notifies := ns } L := by
  obtain ⟨o', hL, ho'⟩ := ht.cell hlt
  obtain rfl : o = o' := by simpa [ho] using ho'
  refine ⟨ht.len, ?_, fun h => ht.elems (by dsimp only at h; omega)⟩
  dsimp only
  rw [ht.updated, List.take_succ, hL]
  rfl

theorem run_updates (L : List Observer) (g : Nat) :
    forall (k : Nat) {ed : EventDispatcher} {n : NotifyCall}, n.Tracks ed L ->
      ed.notifies[g]? = some n -> n.next + k = n.observers.len ->
      run ed (List.replicate k (.update g)) = some { ed with
        notifies := ed.notifies.set g { n with next := n.observers.len, updated := L } }
  | 0, ed, n, ht, hn, hk => by
    have hup : L = n.updated := by
      rw [ht.updated, List.take_of_length_le (by rw [← ht.len]; omega)]
    have hself : { n with next := n.observers.len, updated := L } = n := by
      rw [hup, ← hk]
      rfl
    have hset : ed.notifies.set g n = ed.notifies := by
      apply List.ext_getElem?
      intro j
      rw [List.getElem?_set]
      split_ifs with h₁ h₂
      · rw [← h₁, hn]
      · exact absurd (List.getElem?_eq_some_iff.mp hn).1 (h₁ ▸ h₂)
      · rfl
    rw [hself, hset]
    rfl
  | k + 1, ed, n, ht, hn, hk => by
    obtain ⟨o, -, ho⟩ := ht.cell (by omega)
    have hlt : n.next < n.observers.len := by omega
    have h₁ := ht.update hlt ho (ed.notifies.set g { n with next := n.next + 1, updated := n.updated ++ [o] })
    rw [List.replicate_succ, run_cons]
    simp only [step, update_eq hn hlt ho, Option.some_bind]
    rw [run_updates L g k h₁ (by simp [List.getElem?_set, (List.getElem?_eq_some_iff.mp hn).1])
      (by dsimp only; omega)]
    simp [List.set_set]

end NotifyCall.Tracks

theorem step_racedCalls {m : Move} (hs : step ed m = some ed') :
    ed.racedCalls <+: ed'.racedCalls := by
  cases m with
  | subscribe t o c =>
    cases hs
    unfold EventDispatcher.subscribe
    dsimp only
    split <;> simp
  | unsubscribe t o =>
    cases hs
    unfold EventDispatcher.unsubscribe
    dsimp only
    split <;> simp
  | notify e =>
    cases hs
    exact List.prefix_rfl
  | update g =>
    obtain ⟨_, _, _, _, _, rfl⟩ := update_cases hs
    exact List.prefix_rfl

theorem run_racedCalls : forall (moves : List Move) {ed ed' : EventDispatcher},
    run ed moves = some ed' -> ed.racedCalls <+: ed'.racedCalls
  | [], _, _, h => by
    cases h
    exact List.prefix_rfl
  | _ :: ms, _, _, h => by
    obtain ⟨ed₁, h₁, h₂⟩ := Option.bind_eq_some.mp h
    exact (step_racedCalls h₁).trans (run_racedCalls ms h₂)

theorem Holds.elems_step (hR : Holds R ed) {m : Move} (hs : ObserverDemo.step ed m = some ed')
    (hn : ed.notifies[g]? = some n) (hr : g ∉ ed'.racedCalls) (hlt : n.next < n.observers.len) :
    ed'.elems n.observers = ed.elems n.observers := by
  have hin : n.observers.array < ed.heap.length :=
    ((hR.ranging n (List.getElem?_mem hn)).2 n.next le_rfl hlt).lt_length
  have hmiss : forall {a lo hi : Nat}, g ∉ ed.racedWith a lo hi -> n.meets a lo hi = false :=
    fun h => Bool.eq_false_iff.mpr fun hm => h (mem_racedWith.mpr ⟨n, hn, hm⟩)
  cases m with
  | subscribe t o c =>
    cases hs
    revert hr
    unfold EventDispatcher.subscribe
    dsimp only
    split_ifs with hc
    · intro hr
      simp only [List.mem_append, not_or] at hr
      simp only [EventDispatcher.elems, array_set_heap (hR.array t (by omega)).1]
      split_ifs with he
      · have := NotifyCall.meets_eq_false (hmiss hr.2) hlt he.symm (Nat.lt_succ_self _)
        rw [List.set_take, List.set_eq_of_length_le (by simp; omega), he]
      · rfl
    · intro _
      simp only [EventDispatcher.elems, array_append_heap, if_pos hin]
  | unsubscribe t o =>
    cases hs
    revert hr
    unfold EventDispatcher.unsubscribe
    dsimp only
    split
    · intro _
      rfl
    · next i hi =>
      intro hr
      simp only [List.mem_append, not_or] at hr
      have hi' : i < (lookup ed.observers t).len := by
        have := indexOfID_lt hi
        rwa [hR.elems, List.length_map, ← hR.len_eq] at this
      obtain ⟨ha, hal⟩ := hR.array t (by have := hR.len_le t; omega)
      have hl : (lookup ed.observers t).len ≤ (ed.array (lookup ed.observers t).array).length :=
        hal ▸ hR.len_le t
      simp only [EventDispatcher.elems, array_set_heap ha]
      split_ifs with he
      · by_cases hlast : i + 1 < (lookup ed.observers t).len
        · have := NotifyCall.meets_eq_false (hmiss hr.2) hlt he.symm (by omega)
          rw [take_removeAt_of_le hi' hl this, he]
        · rw [removeAt_last (by omega) hl, he]
      · rfl
  | notify e =>
    cases hs
    rfl
  | update g =>
    obtain ⟨_, _, _, _, _, rfl⟩ := update_cases hs
    rfl

theorem NotifyCall.Tracks.step (hR : Holds R ed) (hn : ed.notifies[g]? = some n)
    (ht : n.Tracks ed L) {m : Move} (hs : ObserverDemo.step ed m = some ed')
    (hr : g ∉ ed'.racedCalls) : exists n', ed'.notifies[g]? = some n' ∧ n'.Tracks ed' L := by
  have helems : n.next < n.observers.len -> ed'.elems n.observers = L.map some := fun hlt =>
    (hR.elems_step hs hn hr hlt).trans (ht.elems hlt)
  cases m with
  | subscribe t o c =>
    cases hs
    exact ⟨n, by simpa using hn, ht.len, ht.updated, helems⟩
  | unsubscribe t o =>
    cases hs
    exact ⟨n, by simpa using hn, ht.len, ht.updated, helems⟩
  | notify e =>
    cases hs
    refine ⟨n, ?_, ht.len, ht.updated, helems⟩
    rw [EventDispatcher.notify, List.getElem?_append_left (List.getElem?_eq_some_iff.mp hn).1, hn]
  | update g' =>
    obtain ⟨n₁, o, hn₁, hlt, ho, rfl⟩ := update_cases hs
    by_cases hg : g' = g
    · subst hg
      obtain rfl : n₁ = n := Option.some.inj (hn₁.symm.trans hn)
      exact ⟨_, List.getElem?_set_self (List.getElem?_eq_some_iff.mp hn).1, ht.update hlt ho _⟩
    · exact ⟨n, by rw [List.getElem?_set_ne hg, hn], ht.len, ht.updated, helems⟩

theorem NotifyCall.Tracks.run : forall (moves : List Move) {R : Registry}
    {ed ed' : EventDispatcher} {n : NotifyCall}, Holds R ed -> ed.notifies[g]? = some n ->
    n.Tracks ed L -> ObserverDemo.run ed moves = some ed' -> g ∉ ed'.racedCalls ->
    exists n', ed'.notifies[g]? = some n' ∧ n'.Tracks ed' L
  | [], _, _, _, _, _, hn, ht, h, _ => by
    cases h
    exact ⟨_, hn, ht⟩
  | _ :: ms, _, _, _, _, hR, hn, ht, h, hr => by
    obtain ⟨ed₁, h₁, h₂⟩ := Option.bind_eq_some.mp h
    obtain ⟨n₁, hn₁, ht₁⟩ := ht.step hR hn h₁ fun hg => hr ((run_racedCalls ms h₂).subset hg)
    exact NotifyCall.Tracks.run ms (hR.step h₁) hn₁ ht₁ h₂ hr

/-- A `Notify` that no write races with reaches exactly the observers
subscribed to its event type when it copied the header, in their order: at
every point of the run it has updated a prefix of them, and its range has one
iteration for each.  Races of other calls make no difference. -/
theorem notify_snapshot (moves rest : List Move) (e : Event) (ed ed' : EventDispatcher)
    (h : run newEventDispatcher moves = some ed) (h' : run ed (.notify e :: rest) = some ed')
    (hr : ed.notifies.length ∉ ed'.racedCalls) :
    exists n, ed'.notifies[ed.notifies.length]? = some n ∧
      n.observers.len = (Registry.empty.run moves e.type).length ∧
      n.updated = (Registry.empty.run moves e.type).take n.next := by
  have hR := Holds.init.run moves h
  have ht : NotifyCall.Tracks ⟨e, lookup ed.observers e.type, 0, []⟩ (ed.notify e)
      (Registry.empty.run moves e.type) :=
    ⟨hR.len_eq e.type, rfl, fun _ => hR.elems e.type⟩
  have hn : (ed.notify e).notifies[ed.notifies.length]? = some ⟨e, lookup ed.observers e.type, 0, []⟩ := by
    simp [EventDispatcher.notify]
  obtain ⟨n, hn, ht'⟩ := ht.run rest (hR.notify e) hn h' hr
  exact ⟨n, hn, ht'.len, ht'.updated⟩

/-- The subscriptions of the program's advanced scenario: `email1`, `email2`,
`sms1`, `sms2`, `logger1` and `db1` subscribe to `price_update`, with the
capacities the runtime gives a growing slice of interface values. -/
def advancedSubscribes : List Move :=
  [.subscribe "price_update" ⟨0, "email1"⟩ 1, .subscribe "price_update" ⟨1, "email2"⟩ 2,
    .subscribe "price_update" ⟨2, "sms1"⟩ 4, .subscribe "price_update" ⟨3, "sms2"⟩ 4,
    .subscribe "price_update" ⟨4, "logger1"⟩ 8, .subscribe "price_update" ⟨5, "db1"⟩ 8]

/-- In the advanced scenario, an `Unsubscribe` of `sms1` races with a first
`Notify`; a second `Notify`, made after it, still reaches the five observers
left, each once. -/
theorem notify_snapshot_after_race :
    exists ed ed', run newEventDispatcher (advancedSubscribes ++
        [.notify ⟨"price_update"⟩, .unsubscribe "price_update" ⟨2, "sms1"⟩]) = some ed ∧
      run ed (.notify ⟨"price_update"⟩ :: List.replicate 5 (.update 1)) = some ed' ∧
      ed'.raced = true ∧ ed.notifies.length ∉ ed'.racedCalls ∧
      exists n, ed'.notifies[ed.notifies.length]? = some n ∧
        n.observers.len = (Registry.empty.run (advancedSubscribes ++
          [.notify ⟨"price_update"⟩, .unsubscribe "price_update" ⟨2, "sms1"⟩])
          "price_update").length ∧
        n.updated = (Registry.empty.run (advancedSubscribes ++
          [.notify ⟨"price_update"⟩, .unsubscribe "price_update" ⟨2, "sms1"⟩])
          "price_update").take n.next :=
  ⟨_, _, rfl, rfl, rfl, by decide, notify_snapshot (advancedSubscribes ++
    [Move.notify ⟨"price_update"⟩, Move.unsubscribe "price_update" ⟨2, "sms1"⟩])
    (List.replicate 5 (Move.update 1)) ⟨"price_update"⟩ _ _ rfl rfl (by decide)⟩

/-- Between calls no `Notify` ranges, so the next call races with none, and
each `Notify` call reaches the observers the registry holds at its call. -/
theorem runCalls_exec : forall (calls : List Call) {R : Registry} {ed : EventDispatcher},
    Holds R ed -> ed.raced = false -> (∀ n ∈ ed.notifies, n.observers.len ≤ n.next) ->
    exists ed', runCalls ed calls = some ed' ∧ ed'.raced = false ∧
      ed'.notifies.map NotifyCall.updated = ed.notifies.map NotifyCall.updated ++ R.exec calls
  | [], _, ed, _, hr, _ => ⟨ed, rfl, hr, by simp [Registry.exec]⟩
  | .subscribe t o c :: cs, _, ed, hR, hr, hd => by
    have hr' : (ed.subscribe t o c).raced = false := by
      unfold EventDispatcher.subscribe
      dsimp only
      split <;> simp [hr, racesOn_of_done hd]
    obtain ⟨ed', h, hr'', hu⟩ := runCalls_exec cs (hR.subscribe t o c) hr' (by simpa using hd)
    exact ⟨ed', h, hr'', by simpa [Registry.exec] using hu⟩
  | .unsubscribe t o :: cs, _, ed, hR, hr, hd => by
    have hr' : (ed.unsubscribe t o).raced = false := by
      unfold EventDispatcher.unsubscribe
      dsimp only
      split <;> simp [hr, racesOn_of_done hd]
    obtain ⟨ed', h, hr'', hu⟩ := runCalls_exec cs (hR.unsubscribe t o) hr' (by simpa using hd)
    exact ⟨ed', h, hr'', by simpa [Registry.exec] using hu⟩
  | .notify e :: cs, R, ed, hR, hr, hd => by
    have ht : NotifyCall.Tracks ⟨e, lookup ed.observers e.type, 0, []⟩ (ed.notify e) (R e.type) :=
      ⟨hR.len_eq e.type, rfl, fun _ => hR.elems e.type⟩
    have hn : (ed.notify e).notifies[ed.notifies.length]? =
        some ⟨e, lookup ed.observers e.type, 0, []⟩ := by
      simp [EventDispatcher.notify]
    have hrun := ht.run_updates (R e.type) ed.notifies.length _ hn (Nat.zero_add _)
    -- the call leaves the finished `Notify` at the end of the list
    let n₂ : NotifyCall := ⟨e, lookup ed.observers e.type, (lookup ed.observers e.type).len, R e.type⟩
    have hR₂ : Holds R { ed with notifies := ed.notifies ++ [n₂] } :=
      { elems := hR.elems, len_le := hR.len_le, array := hR.array, owner := hR.owner,
        ranging := fun n hn => by
          rcases List.mem_append.mp hn with hn | hn
          · exact hR.ranging n hn
          · obtain rfl := List.mem_singleton.mp hn
            exact ⟨le_rfl, fun k h₁ h₂ => absurd h₂ (by dsimp only at h₁ ⊢; omega)⟩ }
    obtain ⟨ed', h, hr', hu⟩ := runCalls_exec cs hR₂ hr fun n hn => by
      rcases List.mem_append.mp hn with hn | hn
      · exact hd n hn
      · obtain rfl := List.mem_singleton.mp hn
        exact le_rfl
    refine ⟨ed', ?_, hr', by simp [hu, Registry.exec]⟩
    simp only [runCalls, Call.moves, run_cons, step, Option.some_bind]
    rw [hrun]
    convert h using 3
    simp [EventDispatcher.notify, List.set_append_right, n₂]

/-- Calls made one after another, as the program's `main` makes them, never
race, and each `Notify` among them reaches exactly the observers subscribed
to its event type at its call, in their order. -/
theorem runCalls_refines (calls : List Call) :
    exists ed, runCalls newEventDispatcher calls = some ed ∧ ed.raced = false ∧
      ed.notifies.map NotifyCall.updated = Registry.empty.exec calls := by
  simpa using runCalls_exec calls Holds.init rfl (by simp [newEventDispatcher])

end ObserverDemo
