import DelayCall.Model.Machine

/-!
# The transitions of the machine

`Transition s s'` lists, one constructor per path through the source, every
way `step` can take `s` to `s'`, with the guards that path checks.
`step_transition` is the inversion of `step`; the invariant modules reason
over its constructors and never unfold `step`.
-/

namespace DelayCall

open State

inductive Transition : State -> State -> Prop where
  | produce {s : State} {r : Request} :
      s.externalCh.closed = false -> s.externalCh.buf.length < externalCap ->
      Transition s { s with externalCh := { s.externalCh with buf := s.externalCh.buf ++ [r] } }
  | closeInput {s : State} :
      s.externalCh.closed = false ->
      Transition s { s with externalCh := { s.externalCh with closed := true } }
  | recv {s : State} {r : Request} {rest : List Request} :
      s.processor = .recv -> s.externalCh.buf = r :: rest ->
      Transition s { s with externalCh := { s.externalCh with buf := rest },
                            processor := .lock r, received := s.received ++ [r] }
  | finish {s : State} :
      s.processor = .recv -> s.externalCh.buf = [] -> s.externalCh.closed = true ->
      Transition s { s with processor := .exited }
  | route {s : State} {r : Request} {c : Nat} :
      s.processor = .lock r -> s.mu = false -> s.activeDelayers r.uid = some c ->
      Transition s { s with processor := .send r c, mu := true }
  | spawn {s : State} {r : Request} :
      s.processor = .lock r -> s.mu = false -> s.activeDelayers r.uid = none ->
      r.needsDelay = true -> Transition s (s.spawn r)
  | direct {s : State} {r : Request} :
      s.processor = .lock r -> s.mu = false -> s.activeDelayers r.uid = none ->
      r.needsDelay = false -> Transition s { s with processor := .call r }
  | send {s : State} {r : Request} {c : Nat} {ch : Go.Chan Request} :
      s.processor = .send r c -> s.chans[c]? = some ch -> ch.closed = false ->
      ch.buf.length < delayerCap ->
      Transition s { s.setChan c { ch with buf := ch.buf ++ [r] } with
                     processor := .recv, mu := false }
  | sendClosed {s : State} {r : Request} {c : Nat} {ch : Go.Chan Request} :
      s.processor = .send r c -> s.chans[c]? = some ch -> ch.closed = true ->
      Transition s { s with panic := some .sendOnClosed }
  | callMain {s : State} {r : Request} :
      s.processor = .call r -> Transition s { s.callService r with processor := .recv }
  | receive {s : State} {j : Nat} {d : UserDelayer} {ch : Go.Chan Request} {r : Request}
      {rest : List Request} :
      s.delayers[j]? = some d -> (d.pc = .recvFirst ∨ d.pc = .select) ->
      s.chans[d.ch]? = some ch -> ch.buf = r :: rest ->
      Transition s ((s.setChan d.ch { ch with buf := rest }).setPc j d (.call r))
  | receiveClosed {s : State} {j : Nat} {d : UserDelayer} {ch : Go.Chan Request} {pc : DelayerPc} :
      s.delayers[j]? = some d ->
      (d.pc = .recvFirst ∧ pc = .lockClosed ∨ d.pc = .select ∧ pc = .returned) ->
      s.chans[d.ch]? = some ch -> ch.buf = [] -> ch.closed = true ->
      Transition s (s.setPc j d pc)
  | callDelayer {s : State} {j : Nat} {d : UserDelayer} {r : Request} :
      s.delayers[j]? = some d -> d.pc = .call r ->
      Transition s ((s.callService r).setPc j d .select)
  | fire {s : State} {j : Nat} {d : UserDelayer} :
      s.delayers[j]? = some d -> d.pc = .select -> Transition s (s.setPc j d .lockTimer)
  | rearm {s : State} {j : Nat} {d : UserDelayer} {ch : Go.Chan Request} :
      s.delayers[j]? = some d -> d.pc = .lockTimer -> s.mu = false ->
      s.chans[d.ch]? = some ch -> 0 < ch.buf.length -> Transition s (s.setPc j d .select)
  | retire {s : State} {j : Nat} {d : UserDelayer} {ch : Go.Chan Request} {pc : DelayerPc} :
      s.delayers[j]? = some d ->
      (d.pc = .lockTimer ∧ ch.buf = [] ∧ pc = .exited ∨ d.pc = .lockClosed ∧ pc = .returned) ->
      s.mu = false -> s.chans[d.ch]? = some ch -> ch.closed = false ->
      Transition s (((s.unregister j d).setChan d.ch { ch with closed := true }).setPc j d pc)
  | retireClosed {s : State} {j : Nat} {d : UserDelayer} {ch : Go.Chan Request} :
      s.delayers[j]? = some d -> (d.pc = .lockTimer ∧ ch.buf = [] ∨ d.pc = .lockClosed) ->
      s.mu = false -> s.chans[d.ch]? = some ch -> ch.closed = true ->
      Transition s { s.unregister j d with panic := some .closeOfClosed }

/-!
## Inversion of `step`
-/

variable {s s' : State} {j : Nat} {d : UserDelayer}

theorem processorStep_transition (h : s.processorStep = some s') : Transition s s' := by
  unfold processorStep at h
  split at h
  · rename_i hpc
    split at h
    · cases h
    · rename_i c hrecv
      obtain ⟨hbuf, hclosed, rfl⟩ := Go.Chan.recv_eq_some_none hrecv
      cases h
      exact .finish hpc hbuf hclosed
    · rename_i r c hrecv
      obtain ⟨rest, hbuf, rfl⟩ := Go.Chan.recv_eq_some_some hrecv
      cases h
      exact .recv hpc hbuf
  · rename_i r hpc
    split at h
    · cases h
    · rename_i hmu
      simp only [Bool.not_eq_true] at hmu
      split at h
      · cases h
        exact .route hpc hmu ‹_›
      · split at h <;> cases h
        · exact .spawn hpc hmu ‹_› ‹_›
        · exact .direct hpc hmu ‹_› (by simpa using ‹¬r.needsDelay = true›)
  · rename_i r c hpc
    split at h
    · cases h
    · rename_i ch hch
      split at h
      · cases h
      · obtain ⟨hclosed, rfl⟩ := Go.Chan.send_eq_some_error ‹_›
        cases h
        exact .sendClosed hpc hch hclosed
      · obtain ⟨hclosed, hlen, rfl⟩ := Go.Chan.send_eq_some_ok ‹_›
        cases h
        exact .send hpc hch hclosed hlen
  · cases h
    exact .callMain ‹_›
  · cases h

theorem receive_transition {onClosed : DelayerPc} (hd : s.delayers[j]? = some d)
    (hpc : d.pc = .recvFirst ∧ onClosed = .lockClosed ∨ d.pc = .select ∧ onClosed = .returned)
    (h : s.receive j d onClosed = some s') : Transition s s' := by
  unfold receive at h
  split at h
  · cases h
  · rename_i ch hch
    split at h
    · cases h
    · obtain ⟨hbuf, hclosed, -⟩ := Go.Chan.recv_eq_some_none ‹_›
      cases h
      exact .receiveClosed hd hpc hch hbuf hclosed
    · obtain ⟨rest, hbuf, rfl⟩ := Go.Chan.recv_eq_some_some ‹_›
      cases h
      exact .receive hd (hpc.imp And.left And.left) hch hbuf

theorem retire_transition {after : DelayerPc} (hd : s.delayers[j]? = some d)
    (hmu : s.mu = false)
    (hpc : forall ch, s.chans[d.ch]? = some ch ->
      d.pc = .lockTimer ∧ ch.buf = [] ∧ after = .exited ∨
        d.pc = .lockClosed ∧ after = .returned)
    (h : s.retire j d after = some s') : Transition s s' := by
  unfold retire at h
  split at h
  · cases h
  · rename_i ch hch
    split at h
    · obtain ⟨hclosed, rfl⟩ := Go.Chan.close_eq_error ‹_›
      cases h
      have hcase := hpc ch hch
      exact .retireClosed hd (hcase.imp (fun h => ⟨h.1, h.2.1⟩) And.left) hmu hch hclosed
    · obtain ⟨hclosed, rfl⟩ := Go.Chan.close_eq_ok ‹_›
      cases h
      exact .retire hd (hpc ch hch) hmu hch hclosed

theorem delayerStep_transition (h : s.delayerStep j = some s') : Transition s s' := by
  unfold delayerStep at h
  split at h
  · cases h
  · rename_i d hd
    split at h
    · exact receive_transition hd (.inl ⟨‹_›, rfl⟩) h
    · split at h
      · cases h
      · exact retire_transition hd (by simpa using ‹¬s.mu = true›)
          (fun _ _ => .inr ⟨‹_›, rfl⟩) h
    · cases h
      exact .callDelayer hd ‹_›
    · exact receive_transition hd (.inr ⟨‹_›, rfl⟩) h
    · rename_i hpc
      split at h
      · cases h
      · rename_i hmu
        simp only [Bool.not_eq_true] at hmu
        split at h
        · cases h
        · rename_i ch hch
          split at h
          · cases h
            exact .rearm hd hpc hmu hch ‹_›
          · refine retire_transition hd hmu (fun ch' hch' => .inl ⟨hpc, ?_, rfl⟩) h
            rw [hch] at hch'
            cases hch'
            simpa using ‹¬0 < ch.buf.length›
    · cases h
    · cases h

theorem timerStep_transition (h : s.timerStep j = some s') : Transition s s' := by
  unfold timerStep at h
  split at h
  · cases h
  · split at h
    · cases h
      exact .fire ‹_› ‹_›
    · cases h

theorem step_transition {m : Move} (h : step s m = some s') : Transition s s' := by
  unfold step at h
  split at h
  · cases h
  · split at h
    · split at h
      · obtain ⟨hclosed, hlen, rfl⟩ := Go.Chan.send_eq_some_ok ‹_›
        cases h
        exact .produce hclosed hlen
      · cases h
    · split at h
      · obtain ⟨hclosed, rfl⟩ := Go.Chan.close_eq_ok ‹_›
        cases h
        exact .closeInput hclosed
      · cases h
    · exact processorStep_transition h
    · exact delayerStep_transition h
    · exact timerStep_transition h

end DelayCall
