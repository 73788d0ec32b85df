import DelayCall.Invariants.Conservation
import DelayCall.Model.Monitor
import DelayCall.Service.Fifo

/-!
# Per-key order of the calls

For each key the requests `processor` has read are, in order, the calls of
`callService` on that key followed by the key's pending requests: those of
the delayer that owns the key (the one in its hand, then its channel's
buffer), then the one in `processor`'s hand.  Whoever runs a request of the
key, `processor` or the owner, runs the oldest pending one, so the calls on a
key are a prefix of the key's requests in the order they were read.

Seen through `abstraction` (the requests read and the requests run), every
transition is a step of the per-key FIFO service of `Service.Fifo` or
invisible to it (`InOrder.refines`), and the prefix property is read off the
service's own invariant.
-/

namespace DelayCall

/-- The requests of the delayer on channel `c`, oldest first. -/
def ownerQueue (s : State) (c : Nat) : List Request :=
  (s.delayers[c]?.map fun d => d.pc.hand).getD [] ++ (s.chans[c]?.map Go.Chan.buf).getD []

/-- The requests of key `K` its owner holds, oldest first. -/
def ownedOn (s : State) (K : String) : List Request :=
  ((s.activeDelayers K).map (ownerQueue s)).getD []

/-- The requests read on each key are its calls, then the owner's requests,
then the one `processor` holds. -/
def InOrder (s : State) : Prop :=
  forall K, keyed s.received K = keyed s.calls K ++ ownedOn s K ++ keyed s.processor.hand K

theorem ownerQueue_of_some {s : State} {j : Nat} {d : UserDelayer} {ch : Go.Chan Request}
    (hd : s.delayers[j]? = some d) (hch : s.chans[j]? = some ch) :
    ownerQueue s j = d.pc.hand ++ ch.buf := by
  simp [ownerQueue, hd, hch]

section Slot

variable {s : State} (s' : State) {j : Nat} {d : UserDelayer} {ch ch' : Go.Chan Request}
  {pc : DelayerPc}

theorem ownerQueue_set (hd : s.delayers[j]? = some d) (hch : s.chans[j]? = some ch)
    (hds : s'.delayers = s.delayers.set j { d with pc := pc })
    (hcs : s'.chans = s.chans.set j ch') (c : Nat) :
    ownerQueue s' c = if c = j then pc.hand ++ ch'.buf else ownerQueue s c := by
  simp only [ownerQueue, hds, hcs, getElem?_set_of_some hd, getElem?_set_of_some hch]
  split <;> rfl

theorem ownedOn_set_ne (ho : Ownership s) (hd : s.delayers[j]? = some d)
    (hch : s.chans[j]? = some ch) (hds : s'.delayers = s.delayers.set j { d with pc := pc })
    (hcs : s'.chans = s.chans.set j ch') {K : String}
    (htable : s'.activeDelayers K = s.activeDelayers K) (hK : K ≠ d.uid) :
    ownedOn s' K = ownedOn s K := by
  unfold ownedOn
  rw [htable]
  cases hc : s.activeDelayers K with
  | none => rfl
  | some c =>
      have hcj : c ≠ j := by
        rintro rfl
        have he := ho.entry K c hc
        rw [hd] at he
        exact hK (Option.some.inj he).symm
      simp [ownerQueue_set s' hd hch hds hcs, hcj]

theorem ownedOn_set_self (hd : s.delayers[j]? = some d) (hch : s.chans[j]? = some ch)
    (hds : s'.delayers = s.delayers.set j { d with pc := pc })
    (hcs : s'.chans = s.chans.set j ch') (htab : s'.activeDelayers d.uid = some j) :
    ownedOn s' d.uid = pc.hand ++ ch'.buf := by
  simp [ownedOn, htab, ownerQueue_set s' hd hch hds hcs]

theorem ownedOn_congr {s' : State} (htable : s'.activeDelayers = s.activeDelayers)
    (hds : s'.delayers = s.delayers) (hcs : s'.chans = s.chans) : ownedOn s' = ownedOn s := by
  have hq : ownerQueue s' = ownerQueue s := by
    funext c
    simp only [ownerQueue, hds, hcs]
  funext K
  simp only [ownedOn, htable, hq]

end Slot

namespace InOrder

variable {s s' : State} {j : Nat} {d : UserDelayer} {ch ch' : Go.Chan Request} {pc : DelayerPc}

theorem of_slot (hi : InOrder s) (ho : Ownership s) (hd : s.delayers[j]? = some d)
    (hch : s.chans[j]? = some ch) (htab : s.activeDelayers d.uid = some j)
    (hds : s'.delayers = s.delayers.set j { d with pc := pc })
    (hcs : s'.chans = s.chans.set j ch') (htable : s'.activeDelayers = s.activeDelayers)
    (hproc : s'.processor = s.processor) (hrecv : s'.received = s.received)
    (new : List Request) (hcalls : s'.calls = s.calls ++ new)
    (hnew : ∀ r ∈ new, r.uid = d.uid) (hq : new ++ pc.hand ++ ch'.buf = d.pc.hand ++ ch.buf) :
    InOrder s' := by
  intro K
  rw [hrecv, hi K, hcalls, hproc, keyed_append]
  by_cases hK : K = d.uid
  · subst hK
    have hkeyed : keyed new d.uid = new := List.filter_eq_self.mpr (by simpa using hnew)
    rw [ownedOn_set_self s' hd hch hds hcs (htable ▸ htab), hkeyed]
    simp only [ownedOn, htab, Option.map_some', Option.getD_some, ownerQueue_of_some hd hch,
      ← hq, List.append_assoc]
  · have hkeyed : keyed new K = [] :=
      List.filter_eq_nil_iff.mpr fun r hr => by simp [hnew r hr, Ne.symm hK]
    rw [ownedOn_set_ne s' ho hd hch hds hcs (by rw [htable]) hK, hkeyed, List.append_nil]

theorem of_processor (s : State) (htable : s'.activeDelayers = s.activeDelayers)
    (hds : s'.delayers = s.delayers) (hcs : s'.chans = s.chans)
    (h : forall K, keyed s'.received K = keyed s'.calls K ++ ownedOn s K ++
      keyed s'.processor.hand K) : InOrder s' := by
  rw [InOrder, ownedOn_congr htable hds hcs]
  exact h

theorem ownedOn_spawn (ho : Ownership s) (r : Request) (K : String) :
    ownedOn (s.spawn r) K = if K = r.uid then [r] else ownedOn s K := by
  unfold ownedOn
  split
  · subst_vars
    simp [State.spawn, ownerQueue, ← ho.length_eq, DelayerPc.hand]
  · rename_i hK
    simp only [State.spawn, Function.update_noteq hK]
    cases hc : s.activeDelayers K with
    | none => rfl
    | some c =>
        have hlt : c < s.delayers.length := by
          have he := ho.entry K c hc
          by_contra hge
          rw [List.getElem?_eq_none (by omega)] at he
          cases he
        simp [ownerQueue, List.getElem?_append_left hlt,
          List.getElem?_append_left (ho.length_eq ▸ hlt)]

/-- The delete and close of lines 109-110 leave what every key owns. -/
theorem retire (hi : InOrder s) (ho : Ownership s) (hd : s.delayers[j]? = some d)
    (hpc : d.pc = .lockTimer) (hbuf : ch.buf = []) (hch : s.chans[d.ch]? = some ch)
    (pc' : DelayerPc) :
    InOrder (((s.unregister j d).setChan d.ch { ch with closed := true }).setPc j d pc') := by
  have hslot := ho.chan_of_delayer hd hch
  have htab : s.activeDelayers d.uid = some j := (hslot.owning (by rw [hpc]; rfl)).2
  rw [hslot.ch_eq] at hch ⊢
  intro K
  show keyed s.received K = keyed s.calls K ++ ownedOn _ K ++ keyed s.processor.hand K
  rw [hi K]
  by_cases hK : K = d.uid
  · subst hK
    have hnil : ownedOn s d.uid = [] := by
      simp [ownedOn, htab, ownerQueue_of_some hd hch, hpc, hbuf, DelayerPc.hand]
    rw [hnil]
    simp [ownedOn, State.setPc, State.setChan, State.unregister]
  · rw [ownedOn_set_ne (((s.unregister j d).setChan j { ch with closed := true }).setPc j d pc')
      ho hd hch rfl rfl (Function.update_noteq hK _ _) hK]

theorem step (hi : InOrder s) (ho : Ownership s) (ht : Transition s s') : InOrder s' := by
  cases ht with
  | produce | closeInput => exact hi
  | @recv r _ hpc | finish hpc =>
      refine of_processor s rfl rfl rfl fun K => ?_
      have h := hi K
      simp only [hpc, ProcessorPc.hand, keyed_nil, List.append_nil] at h
      simp only [keyed_append, h, ProcessorPc.hand, keyed_nil, List.append_nil, List.append_assoc]
  | route hpc | direct hpc =>
      refine of_processor s rfl rfl rfl fun K => ?_
      simpa [hpc, ProcessorPc.hand] using hi K
  | @callMain r hpc =>
      refine of_processor s rfl rfl rfl fun K => ?_
      have h := hi K
      simp only [hpc, ProcessorPc.hand] at h
      simp only [State.callService, h, keyed_append, ProcessorPc.hand, keyed_singleton]
      by_cases hK : r.uid = K
      · subst hK
        simp [ownedOn, ho.call_entry r hpc, keyed]
      · simp [hK, keyed]
  | @spawn r hpc _ hnone =>
      intro K
      have h := hi K
      simp only [hpc, ProcessorPc.hand, keyed_singleton] at h
      rw [ownedOn_spawn ho r K]
      simp only [State.spawn, h, ProcessorPc.hand]
      by_cases hK : r.uid = K
      · subst hK
        simp [ownedOn, hnone, keyed]
      · simp [hK, Ne.symm hK, keyed]
  | @send r c ch hpc hch =>
      obtain ⟨d, ch', hd, hch', hu, -, -⟩ := ho.owner_of_entry (ho.send_entry r c hpc)
      rw [hch] at hch'
      cases hch'
      have htab : s.activeDelayers d.uid = some c := hu ▸ ho.send_entry r c hpc
      have hds : s.delayers = s.delayers.set c { d with pc := d.pc } := (set_of_getElem? hd).symm
      intro K
      have h := hi K
      simp only [hpc, ProcessorPc.hand, keyed_singleton] at h
      let s' := { s.setChan c { ch with buf := ch.buf ++ [r] } with
        processor := .recv, mu := false }
      show keyed s.received K = keyed s.calls K ++ ownedOn s' K ++ keyed [] K
      by_cases hK : K = d.uid
      · subst hK
        rw [ownedOn_set_self s' hd hch hds rfl htab, h]
        simp [← hu, ownedOn, htab, ownerQueue_of_some hd hch]
      · have hrK : r.uid ≠ K := hu ▸ Ne.symm hK
        rw [ownedOn_set_ne s' ho hd hch hds rfl rfl hK]
        simp [h, hrK]
  | sendClosed hpc hch hclosed =>
      have := (ho.step (.sendClosed hpc hch hclosed)).no_panic
      cases this
  | @receive _ d ch r rest hd hpc hch hbuf =>
      have hslot := ho.chan_of_delayer hd hch
      have hnil : d.pc.hand = [] := by rcases hpc with h | h <;> rw [h] <;> rfl
      have htab : s.activeDelayers d.uid = some _ :=
        (hslot.owning (by rcases hpc with h | h <;> rw [h] <;> rfl)).2
      refine hi.of_slot ho hd (hslot.ch_eq ▸ hch) htab rfl
        (show _ = s.chans.set _ { ch with buf := rest } by
          simp [State.setPc, State.setChan, hslot.ch_eq])
        rfl rfl rfl [] (List.append_nil _).symm (by simp) ?_
      simp [hnil, hbuf]
  | @receiveClosed _ d _ _ hd hpc hch _ hclosed =>
      have hown : d.pc.owning = true := by rcases hpc with ⟨h, -⟩ | ⟨h, -⟩ <;> rw [h] <;> rfl
      rw [ho.open_of_owning hd hown hch] at hclosed
      cases hclosed
  | @callDelayer _ d r hd hpc =>
      obtain ⟨ch, hch, hslot⟩ := ho.slot_of_delayer hd
      have htab := (hslot.owning (by rw [hpc]; rfl)).2
      refine hi.of_slot ho hd hch htab rfl (set_of_getElem? hch).symm rfl rfl rfl [r] rfl ?_ ?_
      · simpa using hslot.hand_uid r (by simp [hpc])
      · simp [hpc, DelayerPc.hand]
  | @fire _ d hd hpc | @rearm _ d _ hd hpc =>
      obtain ⟨ch, hch, hslot⟩ := ho.slot_of_delayer hd
      have htab := (hslot.owning (by rw [hpc]; rfl)).2
      refine hi.of_slot ho hd hch htab rfl (set_of_getElem? hch).symm rfl rfl rfl [] (List.append_nil _).symm
        (by simp) ?_
      simp [hpc, DelayerPc.hand]
  | retire hd hcase _ hch _ =>
      rcases hcase with ⟨hpc, hbuf, -⟩ | ⟨hpc, -⟩
      · exact hi.retire ho hd hpc hbuf hch _
      · exact absurd hpc (ho.pc_ne_lockClosed hd)
  | retireClosed hd hcase hmu hch hclosed =>
      have := (ho.step (.retireClosed hd hcase hmu hch hclosed)).no_panic
      cases this

theorem of_reachable {s : State} (hs : Reachable s) : InOrder s := by
  induction hs with
  | start => intro K; rfl
  | next _ hs hstep ih => exact ih.step (Ownership.of_reachable hs) (step_transition hstep)

end InOrder

/-!
## The program refines the service
-/

/-- What `externalCh` and `checkCh` show of a state: the requests read and
the requests run. -/
def abstraction (s : State) : Service := ⟨s.received, s.calls⟩

namespace InOrder

variable {s s' : State}

theorem pending_eq (hi : InOrder s) (K : String) :
    (abstraction s).pending K = ownedOn s K ++ keyed s.processor.hand K := by
  simp only [Service.pending, abstraction, hi K, List.append_assoc, List.drop_left]

/-- Every transition is a step of the service or invisible to it: a read is
an arrival, and a call, by `processor` or by a delayer, serves the oldest
pending request of its key. -/
theorem refines (hi : InOrder s) (ho : Ownership s) (ht : Transition s s') :
    Service.Step (abstraction s) (abstraction s') ∨ abstraction s' = abstraction s := by
  cases ht with
  | @recv r => exact .inl (.arrive _ r)
  | @callMain r hpc =>
      refine .inl (.serve _ r [] ?_)
      rw [hi.pending_eq, hpc]
      simp [ownedOn, ho.call_entry r hpc, ProcessorPc.hand, keyed]
  | @callDelayer _ d r hd hpc =>
      obtain ⟨ch, hch, hslot⟩ := ho.slot_of_delayer hd
      have htab := (hslot.owning (by rw [hpc]; rfl)).2
      have hu : r.uid = d.uid := hslot.hand_uid r (by simp [hpc])
      refine .inl (.serve _ r (ch.buf ++ keyed s.processor.hand r.uid) ?_)
      rw [hi.pending_eq, hu]
      simp [ownedOn, htab, ownerQueue_of_some hd hch, hpc]
  | _ => exact .inr rfl

end InOrder

theorem abstraction_reachable {s : State} (hs : Reachable s) :
    Relation.ReflTransGen Service.Step Service.start (abstraction s) := by
  induction hs with
  | start => exact .refl
  | next _ hs hstep ih =>
      rcases (InOrder.of_reachable hs).refines (Ownership.of_reachable hs)
        (step_transition hstep) with h | h
      · exact ih.tail h
      · exact h ▸ ih

/-- The program refines the per-key FIFO service: every reachable state
abstracts to a state the service reaches, and every move of any goroutine or
of the request source is a step of the service or invisible to it. -/
theorem program_refines_service (s : State) (hs : Reachable s) :
    Relation.ReflTransGen Service.Step Service.start (abstraction s) ∧
    forall m s', step s m = some s' ->
      Service.Step (abstraction s) (abstraction s') ∨ abstraction s' = abstraction s :=
  ⟨abstraction_reachable hs, fun _ _ h =>
    (InOrder.of_reachable hs).refines (Ownership.of_reachable hs) (step_transition h)⟩

theorem sampleState_refines_service : Reachable sampleState ∧
    (Relation.ReflTransGen Service.Step Service.start (abstraction sampleState) ∧
    forall m s', step sampleState m = some s' ->
      Service.Step (abstraction sampleState) (abstraction s') ∨
        abstraction s' = abstraction sampleState) :=
  ⟨sampleState_reachable, program_refines_service sampleState sampleState_reachable⟩

/-!
## The calls on each key, and the monitor
-/

/-- The stream as `simulateRequests` feeds it, as far as `processor` has read
it: every request of key `u`, and the `i`-th read has id `i`. -/
def StreamOfOneKey (s : State) (u : String) : Prop :=
  forall i (h : i < s.received.length), s.received[i].uid = u ∧
    s.received[i].id = BitVec.ofNat 64 i

/-- `fmt.Sprintf("task%03d", i)`. -/
def taskPayload (i : Nat) : String :=
  "task" ++ "".pushn '0' (3 - (toString i).length) ++ toString i

/-- The requests `simulateRequests count` (lines 145-158) sends, in order;
`needsDelay i` is its `i`-th random draw. -/
def simulateRequests (count : Nat) (needsDelay : Nat -> Bool) : List Request :=
  (List.range count).map fun i => ⟨"user1", taskPayload i, needsDelay i, BitVec.ofNat 64 i⟩

theorem streamOfOneKey_of_simulateRequests {s : State} {count : Nat}
    {needsDelay : Nat -> Bool} (h : s.received <+: simulateRequests count needsDelay) :
    StreamOfOneKey s "user1" := by
  intro i hi
  obtain ⟨rest, hrest⟩ := h
  have hlt : i < (simulateRequests count needsDelay).length := by
    rw [← hrest, List.length_append]
    omega
  have hget : (simulateRequests count needsDelay)[i] = s.received[i] := by
    simp only [← hrest, List.getElem_append_left hi]
  rw [← hget]
  simp [simulateRequests]

/-- Per-key order: on every key the ids `callService` sent on `checkCh` are a
prefix of the ids of that key's requests in the order `processor` read them,
whether `processor` or a delayer made each call.  So when all requests share a
key and carry the ids `0, 1, 2, ...` in stream order, no prefix of `checkCh`
makes the monitor of `init` panic. -/
structure PerKeyFifo (s : State) : Prop where
  prefix_on_key : forall K,
    (keyed s.calls K).map Request.id <+: (keyed s.received K).map Request.id
  monitor_ok : forall u, StreamOfOneKey s u ->
    forall ids, ids <+: s.checkCh -> monitor 0 ids ≠ none

theorem calls_prefix_received {s : State} (hs : Reachable s) (K : String) :
    keyed s.calls K <+: keyed s.received K :=
  (Service.Fifo.of_reach (abstraction_reachable hs)).served_are_oldest K

theorem per_key_fifo (s : State) (hs : Reachable s) : PerKeyFifo s := by
  refine ⟨fun K => (calls_prefix_received hs K).map Request.id, ?_⟩
  intro u hu ids hids
  have hrecv : ∀ r ∈ s.received, r.uid = u := by
    intro r hr
    obtain ⟨i, hi, rfl⟩ := List.getElem_of_mem hr
    exact (hu i hi).1
  have hcalls : ∀ r ∈ s.calls, r.uid = u := fun r hr =>
    hrecv r ((Conserved.of_reachable hs).mem_iff.mpr (List.mem_append_right _ hr))
  have hprefix : s.calls <+: s.received := by
    have h := calls_prefix_received hs u
    rwa [keyed, List.filter_eq_self.mpr (by simpa using hcalls), keyed,
      List.filter_eq_self.mpr (by simpa using hrecv)] at h
  have hrange : s.received.map Request.id =
      (List.range s.received.length).map (BitVec.ofNat 64) := by
    apply List.ext_getElem (by simp)
    intro i h1 _
    simpa using (hu i (by simpa using h1)).2
  have hrange := hrange ▸ hprefix.map Request.id
  rw [monitor_prefix_range (hids.trans hrange)]
  exact Option.some_ne_none _

/-- `simulateRequests 3` with only its first request delayed, read and served:
the delayer of `user1` runs requests 0 and 1 and expires, then `processor`
runs request 2 itself. -/
def oneKeyRun : List Move :=
  (simulateRequests 3 (fun i => i == 0)).map Move.produce ++
    [.processor, .processor, .delayer 0, .delayer 0,
     .processor, .processor, .processor, .delayer 0, .delayer 0, .timer 0, .delayer 0,
     .processor, .processor, .processor]

def oneKeyState : State :=
  (run State.init oneKeyRun).getD State.init

theorem oneKeyState_per_key_fifo :
    Reachable oneKeyState ∧ StreamOfOneKey oneKeyState "user1" ∧ PerKeyFifo oneKeyState :=
  have hs : Reachable oneKeyState :=
    Reachable.start.run (show run State.init oneKeyRun = some oneKeyState from rfl)
  have hrecv : oneKeyState.received = simulateRequests 3 (fun i => i == 0) := by decide
  ⟨hs, streamOfOneKey_of_simulateRequests (hrecv ▸ List.prefix_refl oneKeyState.received),
    per_key_fifo _ hs⟩

end DelayCall
