import DelayCall.Invariants.TableLog

/-!
# No request is lost

Every request `processor` has read is, counted with multiplicity, in exactly
one place: `processor`'s hand, the buffer of a per-key channel, the hand of a
delayer, or the calls of `callService`.  This holds of every transition by
itself; `Ownership` adds that a channel holding a request is open and still
the entry of that request's key, so no expiring delayer abandons it.
-/

namespace DelayCall

/-- The requests held somewhere between `externalCh` and `callService`. -/
def inFlight (s : State) : List Request :=
  s.processor.hand ++ (s.chans.map Go.Chan.buf).flatten ++
    (s.delayers.map fun d => d.pc.hand).flatten

/-!
## Counting through one updated slot
-/

theorem flatten_map_set_perm {α : Type} {l : List α} {j : Nat} {a : α}
    (h : l[j]? = some a) (f : α -> List Request) (b : α) :
    (((l.set j b).map f).flatten ++ f a).Perm ((l.map f).flatten ++ f b) := by
  obtain ⟨hj, rfl⟩ := List.getElem?_eq_some_iff.mp h
  rw [List.set_eq_take_append_cons_drop, if_pos hj]
  conv_rhs => rw [← List.take_append_drop j l, List.drop_eq_getElem_cons hj]
  rw [List.perm_iff_count]
  intro x
  simp only [List.map_append, List.map_cons, List.flatten_append, List.flatten_cons,
    List.count_append]
  omega

theorem count_flatten_map_set {α : Type} {l : List α} {j : Nat} {a : α}
    (h : l[j]? = some a) (f : α -> List Request) (b : α) (x : Request) :
    ((l.set j b).map f).flatten.count x + (f a).count x =
      (l.map f).flatten.count x + (f b).count x := by
  simpa using (flatten_map_set_perm h f b).count_eq x

/-- The received requests are exactly those in flight and those run. -/
def Conserved (s : State) : Prop :=
  s.received.Perm (inFlight s ++ s.calls)

namespace Conserved

variable {s s' : State}

theorem step (hc : Conserved s) (ht : Transition s s') : Conserved s' := by
  unfold Conserved at hc ⊢
  rw [List.perm_iff_count] at hc ⊢
  intro x
  have hx := hc x
  cases ht with
  | produce | closeInput | sendClosed | retireClosed => exact hx
  | recv hpc | finish hpc | route hpc | spawn hpc | direct hpc | callMain hpc =>
      simp only [inFlight, State.spawn, State.callService, hpc, ProcessorPc.hand,
        DelayerPc.hand, List.map_append, List.map_cons, List.map_nil, List.flatten_append,
        List.flatten_cons, List.flatten_nil, List.count_append, List.count_cons,
        List.count_nil] at hx ⊢
      omega
  | @send r _ ch hpc hch =>
      have hset := count_flatten_map_set hch Go.Chan.buf { ch with buf := ch.buf ++ [r] } x
      simp only [inFlight, State.setChan, hpc, ProcessorPc.hand, List.count_append,
        List.count_cons, List.count_nil] at hx hset ⊢
      omega
  | @receive _ d ch r rest hd hpc hch hbuf =>
      have hc := count_flatten_map_set hch Go.Chan.buf { ch with buf := rest } x
      have hdl := count_flatten_map_set hd (fun d => d.pc.hand) { d with pc := .call r } x
      have hnil : d.pc.hand = [] := by rcases hpc with h | h <;> rw [h] <;> rfl
      simp only [inFlight, State.setChan, State.setPc, hbuf, hnil, DelayerPc.hand_call,
        List.count_append, List.count_cons, List.count_nil] at hx hc hdl ⊢
      omega
  | @callDelayer _ d r hd hpc =>
      have hdl := count_flatten_map_set hd (fun d => d.pc.hand) { d with pc := .select } x
      simp only [inFlight, State.callService, State.setPc, hpc, DelayerPc.hand,
        List.count_append, List.count_cons, List.count_nil] at hx hdl ⊢
      omega
  | @receiveClosed _ d _ pc hd hpc =>
      have hdl := count_flatten_map_set hd (fun d => d.pc.hand) { d with pc := pc } x
      have hnil : d.pc.hand = [] ∧ pc.hand = [] := by
        rcases hpc with ⟨h, rfl⟩ | ⟨h, rfl⟩ <;> rw [h] <;> exact ⟨rfl, rfl⟩
      simp only [inFlight, State.setPc, hnil, List.count_append, List.count_nil] at hx hdl ⊢
      omega
  | @fire _ d hd hpc =>
      have hdl := count_flatten_map_set hd (fun d => d.pc.hand) { d with pc := .lockTimer } x
      simp only [inFlight, State.setPc, hpc, DelayerPc.hand, List.count_append,
        List.count_nil] at hx hdl ⊢
      omega
  | @rearm _ d _ hd hpc =>
      have hdl := count_flatten_map_set hd (fun d => d.pc.hand) { d with pc := .select } x
      simp only [inFlight, State.setPc, hpc, DelayerPc.hand, List.count_append,
        List.count_nil] at hx hdl ⊢
      omega
  | @retire _ d ch pc hd hcase _ hch =>
      have hc := count_flatten_map_set hch Go.Chan.buf { ch with closed := true } x
      have hdl := count_flatten_map_set hd (fun d => d.pc.hand) { d with pc := pc } x
      have hnil : d.pc.hand = [] ∧ pc.hand = [] := by
        rcases hcase with ⟨h, -, rfl⟩ | ⟨h, rfl⟩ <;> rw [h] <;> exact ⟨rfl, rfl⟩
      simp only [inFlight, State.setChan, State.setPc, State.unregister, hnil,
        List.count_append, List.count_nil] at hx hc hdl ⊢
      omega

theorem of_reachable (hs : Reachable s) : Conserved s := by
  induction hs with
  | start => exact List.Perm.refl _
  | next _ _ hstep ih => exact ih.step (step_transition hstep)

end Conserved

theorem Ownership.buffered_entered {s : State} (ho : Ownership s) {c : Nat} {ch : Go.Chan Request}
    (hch : s.chans[c]? = some ch) (hne : ch.buf ≠ []) :
    ch.closed = false ∧ ∀ r ∈ ch.buf, s.activeDelayers r.uid = some c := by
  have hc : c < s.delayers.length := ho.length_eq ▸ (List.getElem?_eq_some_iff.mp hch).1
  have hslot := ho.slot c _ ch (List.getElem?_eq_getElem hc) hch
  rcases hslot.state with ⟨-, hbuf, -⟩ | ⟨-, hopen, htab⟩
  · exact absurd hbuf hne
  · exact ⟨hopen, fun r hr => (hslot.buf_uid r hr).symm ▸ htab⟩

/-- No request is lost: every request `processor` has read is, with
multiplicity, in exactly one of `processor`'s hand, the buffer of one per-key
channel, the hand of one delayer, or the calls of `callService`; and a
channel that holds a request is open and still the entry of its key. -/
structure NoLoss (s : State) : Prop where
  conserved : s.received.Perm (s.processor.hand ++ (s.chans.map Go.Chan.buf).flatten ++
    (s.delayers.map fun d => d.pc.hand).flatten ++ s.calls)
  buffered_entered : forall c ch, s.chans[c]? = some ch -> ch.buf ≠ [] ->
    ch.closed = false ∧ ∀ r ∈ ch.buf, s.activeDelayers r.uid = some c

theorem no_request_lost (s : State) (hs : Reachable s) : NoLoss s :=
  ⟨Conserved.of_reachable hs, fun _ _ hch hne => (Ownership.of_reachable hs).buffered_entered hch hne⟩

theorem sampleState_no_loss : Reachable sampleState ∧ NoLoss sampleState :=
  ⟨sampleState_reachable, no_request_lost sampleState sampleState_reachable⟩

end DelayCall
