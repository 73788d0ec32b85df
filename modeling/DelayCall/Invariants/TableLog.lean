import DelayCall.Invariants.Ownership

/-!
# The history of the routing table

Every write to `activeDelayers` is recorded in `tableLog`.  For each key the
writes form completed pairs, an insert at line 47 followed by the delete of
the delayer that insert spawned, and then one open insert exactly while the
key is entered.  So deletes never remove another delayer's entry.

`single_owner_per_key` gathers this with `Ownership` into the statement that
each key has at most one owner at any time.
-/

namespace DelayCall

/-- Completed insert/delete pairs on key `K`, made by the delayers `js` in turn. -/
def closedPairs (K : String) (js : List Nat) : List TableOp :=
  js.flatMap fun j => [.insert K j, .delete K j]

theorem closedPairs_append (K : String) (js : List Nat) (j : Nat) :
    closedPairs K (js ++ [j]) = closedPairs K js ++ [.insert K j, .delete K j] := by
  simp [closedPairs]

/-- The writes on key `K` in `tableLog`, in the order they were made. -/
def opsOn (ops : List TableOp) (K : String) : List TableOp :=
  ops.filter fun op => op.uid == K

theorem opsOn_append_insert (ops : List TableOp) (K K' : String) (j : Nat) :
    opsOn (ops ++ [.insert K' j]) K = opsOn ops K ++ (if K' = K then [.insert K' j] else []) := by
  by_cases h : K' = K <;> simp [opsOn, TableOp.uid, h]

theorem opsOn_append_delete (ops : List TableOp) (K K' : String) (j : Nat) :
    opsOn (ops ++ [.delete K' j]) K = opsOn ops K ++ (if K' = K then [.delete K' j] else []) := by
  by_cases h : K' = K <;> simp [opsOn, TableOp.uid, h]

/-- The writes on every key are completed pairs, then the insert of the entry
the key has now, if any. -/
def TableLogOk (s : State) : Prop :=
  forall K, exists js,
    opsOn s.tableLog K = closedPairs K js ++ (s.activeDelayers K).toList.map (TableOp.insert K)

namespace TableLogOk

variable {s s' : State}

theorem spawn (hl : TableLogOk s) (ho : Ownership s) {r : Request}
    (hnone : s.activeDelayers r.uid = none) : TableLogOk (s.spawn r) := by
  intro K
  obtain ⟨js, hjs⟩ := hl K
  refine ⟨js, ?_⟩
  simp only [State.spawn, opsOn_append_insert, hjs]
  by_cases hK : r.uid = K
  · subst hK
    simp [hnone, ho.length_eq]
  · simp [hK, Function.update_noteq (Ne.symm hK)]

theorem retire (hl : TableLogOk s) (ho : Ownership s) {j : Nat} {d : UserDelayer}
    {ch : Go.Chan Request}
    {pc : DelayerPc} (hd : s.delayers[j]? = some d) (hpc : d.pc = .lockTimer)
    (hch : s.chans[d.ch]? = some ch) :
    TableLogOk (((s.unregister j d).setChan d.ch { ch with closed := true }).setPc j d pc) := by
  have htab : s.activeDelayers d.uid = some j :=
    ((ho.chan_of_delayer hd hch).owning (by rw [hpc]; rfl)).2
  intro K
  obtain ⟨js, hjs⟩ := hl K
  simp only [State.setPc, State.setChan, State.unregister, opsOn_append_delete, hjs]
  by_cases hK : d.uid = K
  · subst hK
    refine ⟨js ++ [j], ?_⟩
    simp [htab, closedPairs_append]
  · exact ⟨js, by simp [hK, Function.update_noteq (Ne.symm hK)]⟩

theorem step (hl : TableLogOk s) (ho : Ownership s) (ht : Transition s s') :
    TableLogOk s' := by
  cases ht with
  | spawn _ _ hnone _ => exact hl.spawn ho hnone
  | retire hd hcase _ hch _ =>
      rcases hcase with ⟨hpc, -, -⟩ | ⟨hpc, -⟩
      · exact hl.retire ho hd hpc hch
      · exact absurd hpc (ho.pc_ne_lockClosed hd)
  | retireClosed hd hcase hmu hch hclosed =>
      have := (ho.step (.retireClosed hd hcase hmu hch hclosed)).no_panic
      cases this
  | _ => exact hl

theorem of_reachable (hs : Reachable s) : TableLogOk s := by
  induction hs with
  | start => intro K; exact ⟨[], rfl⟩
  | next _ hs hstep ih => exact ih.step (Ownership.of_reachable hs) (step_transition hstep)

end TableLogOk

/-- A delayer has not yet returned from `userDelayer`. -/
def DelayerPc.running : DelayerPc -> Bool
  | .exited | .returned => false
  | _ => true

namespace Ownership

variable {s : State} {j : Nat} {d : UserDelayer}

theorem exited_or_owning (ho : Ownership s) (hd : s.delayers[j]? = some d) :
    d.pc = .exited ∨ d.pc.owning = true := by
  obtain ⟨ch, -, hslot⟩ := ho.slot_of_delayer hd
  exact hslot.state.imp And.left And.left

theorem running_iff (ho : Ownership s) (hd : s.delayers[j]? = some d) :
    d.pc.running = true ↔ d.pc.owning = true := by
  rcases ho.exited_or_owning hd with h | h
  · simp [h, DelayerPc.running, DelayerPc.owning]
  · simp only [h, iff_true]
    revert h
    cases d.pc <;> simp [DelayerPc.running, DelayerPc.owning]

theorem entry_of_running (ho : Ownership s) (hd : s.delayers[j]? = some d)
    (hrun : d.pc.running = true) : s.activeDelayers d.uid = some j := by
  obtain ⟨ch, -, hslot⟩ := ho.slot_of_delayer hd
  exact (hslot.owning ((ho.running_iff hd).mp hrun)).2

end Ownership

/-- Single ownership of each key: (a) the entry of a key is the own channel
of the one running delayer of that key, delayer `j` owns channel `j`, and no
two delayers share a channel;
(b) while a delayer runs for a key, `processor` is not calling `callService`
for that key and routes the key's requests into that delayer's open channel;
(c) the table writes on each key alternate insert and delete, each delete
made by the delayer of the insert before it.  No runtime panic has happened
and no delayer took an `!ok` branch. -/
structure SingleOwner (s : State) : Prop where
  entry_iff : forall K c, s.activeDelayers K = some c ↔
    exists d, s.delayers[c]? = some d ∧ d.uid = K ∧ d.ch = c ∧ d.pc.running = true
  running_unique : forall (j j' : Nat) (d d' : UserDelayer), s.delayers[j]? = some d ->
    s.delayers[j']? = some d' -> d.uid = d'.uid -> d.pc.running = true ->
    d'.pc.running = true -> j = j'
  ch_eq : forall (j : Nat) (d : UserDelayer), s.delayers[j]? = some d -> d.ch = j
  chan_unique : forall (j j' : Nat) (d d' : UserDelayer), s.delayers[j]? = some d ->
    s.delayers[j']? = some d' -> d.ch = d'.ch -> j = j'
  call_unowned : forall r, s.processor = .call r -> ∀ d ∈ s.delayers, d.uid = r.uid ->
    d.pc.running = false
  send_owned : forall r c, s.processor = .send r c -> exists d ch, s.delayers[c]? = some d ∧
    s.chans[c]? = some ch ∧ d.uid = r.uid ∧ d.pc.running = true ∧ ch.closed = false
  table_pairs : forall K, exists js, opsOn s.tableLog K =
    closedPairs K js ++ (s.activeDelayers K).toList.map (TableOp.insert K)
  no_panic : s.panic = none
  no_closed_receive : ∀ d ∈ s.delayers, d.pc ≠ .lockClosed ∧ d.pc ≠ .returned

theorem single_owner_per_key (s : State) (hs : Reachable s) : SingleOwner s := by
  have ho := Ownership.of_reachable hs
  have hch : forall (j : Nat) (d : UserDelayer), s.delayers[j]? = some d -> d.ch = j := by
    intro j d hd
    obtain ⟨_, -, hslot⟩ := ho.slot_of_delayer hd
    exact hslot.ch_eq
  refine ⟨?_, ?_, hch, ?_, ?_, ?_, TableLogOk.of_reachable hs, ho.no_panic, ?_⟩
  · intro K c
    constructor
    · intro h
      obtain ⟨d, ch, hd, hch, rfl, hown, -⟩ := ho.owner_of_entry h
      obtain ⟨ch', -, hslot⟩ := ho.slot_of_delayer hd
      exact ⟨d, hd, rfl, hslot.ch_eq, (ho.running_iff hd).mpr hown⟩
    · rintro ⟨d, hd, rfl, -, hrun⟩
      exact ho.entry_of_running hd hrun
  · intro j j' d d' hd hd' hu hrun hrun'
    have h := ho.entry_of_running hd hrun
    rw [hu, ho.entry_of_running hd' hrun'] at h
    exact (Option.some.inj h).symm
  · intro j j' d d' hd hd' hdd
    rw [← hch j d hd, ← hch j' d' hd', hdd]
  · intro r hpc d hmem hu
    obtain ⟨j, hd⟩ := List.mem_iff_getElem?.mp hmem
    cases hrun : d.pc.running
    · rfl
    · have h := ho.entry_of_running hd hrun
      rw [hu, ho.call_entry r hpc] at h
      cases h
  · intro r c hpc
    obtain ⟨d, ch, hd, hch, hu, hown, hopen⟩ := ho.owner_of_entry (ho.send_entry r c hpc)
    exact ⟨d, ch, hd, hch, hu, (ho.running_iff hd).mpr hown, hopen⟩
  · intro d hmem
    obtain ⟨j, hd⟩ := List.mem_iff_getElem?.mp hmem
    rcases ho.exited_or_owning hd with h | h
    · simp [h]
    · revert h
      cases d.pc <;> simp [DelayerPc.owning]

/-- A run over two keys: a delayed request of `user1` spawns delayer 0, a
second `user1` request is routed to it, a `user2` request runs directly, and
delayer 0 serves both, expires and exits. -/
def sampleRun : List Move :=
  [.produce ⟨"user1", "task000", true, 0⟩, .produce ⟨"user1", "task001", false, 1⟩,
   .produce ⟨"user2", "task002", false, 2⟩,
   .processor, .processor, .delayer 0, .delayer 0,
   .processor, .processor, .processor,
   .processor, .processor, .processor,
   .delayer 0, .delayer 0, .timer 0, .delayer 0]

def sampleState : State :=
  (run State.init sampleRun).getD State.init

theorem sampleState_reachable : Reachable sampleState :=
  Reachable.start.run (show run State.init sampleRun = some sampleState from rfl)

theorem sampleState_single_owner : Reachable sampleState ∧ SingleOwner sampleState :=
  ⟨sampleState_reachable, single_owner_per_key sampleState sampleState_reachable⟩

end DelayCall
