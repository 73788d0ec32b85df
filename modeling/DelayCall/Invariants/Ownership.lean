import DelayCall.Model.Transition

/-!
# Single ownership of each key

The routing table is the only lock-protected state, and it alone decides who
serves a key.  `Ownership` is the invariant that makes this precise: delayer
`j` owns channel `j`; it is either running with its channel open and entered
for its key, or it has exited with its channel closed, drained and no longer
entered; and every entry of the table names a delayer of that key.  While
`processor` holds `mu` it is sending into the entry of its request's key, and
while it calls `callService` itself that key has no entry.

`Ownership.step` shows that every transition keeps the invariant; no
transition of a state satisfying it panics, and the `!ok` branches of lines
66-71 and 85-87 are never taken.
-/

namespace DelayCall

/-- The places from a delayer's spawn up to its delete at line 109. -/
def DelayerPc.owning : DelayerPc -> Bool
  | .recvFirst | .call _ | .select | .lockTimer => true
  | .lockClosed | .exited | .returned => false

/-- The request a delayer holds between its receive and its `callService`. -/
def DelayerPc.hand : DelayerPc -> List Request
  | .call r => [r]
  | _ => []

@[simp] theorem DelayerPc.hand_call (r : Request) : (DelayerPc.call r).hand = [r] := rfl

/-- The request `processor` holds between reading it and routing or running it. -/
def ProcessorPc.hand : ProcessorPc -> List Request
  | .lock r | .send r _ | .call r => [r]
  | .recv | .exited => []

/-!
## Lists updated at one index
-/

section ListSet

variable {α : Type} {l : List α} {j : Nat} {a : α}

theorem getElem?_set_of_some (h : l[j]? = some a) (b : α) (i : Nat) :
    (l.set j b)[i]? = if i = j then some b else l[i]? := by
  by_cases hij : i = j
  · subst hij
    simp [(List.getElem?_eq_some_iff.mp h).1]
  · simp [hij, List.getElem?_set_ne (Ne.symm hij)]

theorem set_of_getElem? (h : l[j]? = some a) : l.set j a = l := by
  apply List.ext_getElem?
  intro i
  rw [getElem?_set_of_some h]
  split
  · subst_vars
    exact h.symm
  · rfl

end ListSet

/-- Delayer `j` and its channel `ch` as the routing table `table` sees them. -/
structure SlotOk (table : String -> Option Nat) (j : Nat) (d : UserDelayer)
    (ch : Go.Chan Request) : Prop where
  ch_eq : d.ch = j
  buf_uid : ∀ r ∈ ch.buf, r.uid = d.uid
  hand_uid : ∀ r ∈ d.pc.hand, r.uid = d.uid
  state : (d.pc = .exited ∧ ch.buf = [] ∧ ch.closed = true ∧ table d.uid ≠ some j) ∨
    (d.pc.owning = true ∧ ch.closed = false ∧ table d.uid = some j)

theorem SlotOk.congr_table {t t' : String -> Option Nat} {j : Nat} {d : UserDelayer}
    {ch : Go.Chan Request} (h : SlotOk t j d ch) (ht : t' d.uid = some j ↔ t d.uid = some j) :
    SlotOk t' j d ch :=
  ⟨h.ch_eq, h.buf_uid, h.hand_uid, by rw [ne_eq, ht]; exact h.state⟩

theorem SlotOk.owning {t : String -> Option Nat} {j : Nat} {d : UserDelayer} {ch : Go.Chan Request}
    (h : SlotOk t j d ch) (hd : d.pc.owning = true) :
    ch.closed = false ∧ t d.uid = some j := by
  rcases h.state with ⟨hpc, -⟩ | ⟨-, hopen, ht⟩
  · rw [hpc] at hd
    cases hd
  · exact ⟨hopen, ht⟩

theorem slots_set {t : String -> Option Nat} {ds : List UserDelayer} {cs : List (Go.Chan Request)}
    {j : Nat} {d d' : UserDelayer} {ch ch' : Go.Chan Request}
    (hslot : forall i e c, i ≠ j -> ds[i]? = some e -> cs[i]? = some c -> SlotOk t i e c)
    (hd : ds[j]? = some d) (hc : cs[j]? = some ch) (hnew : SlotOk t j d' ch') :
    forall i e c, (ds.set j d')[i]? = some e -> (cs.set j ch')[i]? = some c ->
      SlotOk t i e c := by
  intro i e c he hc'
  rw [getElem?_set_of_some hd] at he
  rw [getElem?_set_of_some hc] at hc'
  by_cases hij : i = j
  · subst hij
    simp only [if_true, Option.some.injEq] at he hc'
    subst he hc'
    exact hnew
  · simp only [hij, if_false] at he hc'
    exact hslot i e c hij he hc'

theorem uid_set_pc {ds : List UserDelayer} {j : Nat} {d : UserDelayer} (hd : ds[j]? = some d)
    (pc : DelayerPc) (c : Nat) :
    (ds.set j { d with pc := pc })[c]?.map UserDelayer.uid = ds[c]?.map UserDelayer.uid := by
  rw [getElem?_set_of_some hd]
  split
  · subst_vars
    simp [hd]
  · rfl

/-- The invariant of single ownership. -/
structure Ownership (s : State) : Prop where
  length_eq : s.chans.length = s.delayers.length
  slot : forall j d ch, s.delayers[j]? = some d -> s.chans[j]? = some ch ->
    SlotOk s.activeDelayers j d ch
  entry : forall K c, s.activeDelayers K = some c -> s.delayers[c]?.map UserDelayer.uid = some K
  mu_iff : s.mu = true ↔ exists r c, s.processor = .send r c
  send_entry : forall r c, s.processor = .send r c -> s.activeDelayers r.uid = some c
  call_entry : forall r, s.processor = .call r -> s.activeDelayers r.uid = none
  no_panic : s.panic = none

namespace Ownership

variable {s s' : State} {j c : Nat} {d : UserDelayer} {K : String}

theorem init : Ownership State.init where
  length_eq := rfl
  slot := by simp [State.init]
  entry := by simp [State.init]
  mu_iff := by simp [State.init]
  send_entry := by simp [State.init]
  call_entry := by simp [State.init]
  no_panic := rfl

theorem mu_false (ho : Ownership s) (h : forall r c, s.processor ≠ .send r c) :
    s.mu = false := by
  cases hmu : s.mu
  · rfl
  · obtain ⟨r, c, hrc⟩ := ho.mu_iff.mp hmu
    exact absurd hrc (h r c)

theorem slot_of_delayer (ho : Ownership s) (hd : s.delayers[j]? = some d) :
    exists ch, s.chans[j]? = some ch ∧ SlotOk s.activeDelayers j d ch := by
  have hj : j < s.chans.length := ho.length_eq ▸ (List.getElem?_eq_some_iff.mp hd).1
  exact ⟨_, List.getElem?_eq_getElem hj, ho.slot _ _ _ hd (List.getElem?_eq_getElem hj)⟩

theorem chan_of_delayer (ho : Ownership s) (hd : s.delayers[j]? = some d) {ch : Go.Chan Request}
    (hch : s.chans[d.ch]? = some ch) : SlotOk s.activeDelayers j d ch := by
  obtain ⟨ch', hch', hslot⟩ := ho.slot_of_delayer hd
  rw [hslot.ch_eq, hch'] at hch
  cases hch
  exact hslot

theorem owner_of_entry (ho : Ownership s) (h : s.activeDelayers K = some c) :
    exists d ch, s.delayers[c]? = some d ∧ s.chans[c]? = some ch ∧ d.uid = K ∧
      d.pc.owning = true ∧ ch.closed = false := by
  obtain ⟨d, hd, rfl⟩ : exists d, s.delayers[c]? = some d ∧ d.uid = K := by
    simpa using ho.entry K c h
  obtain ⟨ch, hch, hslot⟩ := ho.slot_of_delayer hd
  rcases hslot.state with ⟨-, -, -, hne⟩ | ⟨hown, hopen, -⟩
  · exact absurd h hne
  · exact ⟨d, ch, hd, hch, rfl, hown, hopen⟩

theorem open_of_owning (ho : Ownership s) (hd : s.delayers[j]? = some d)
    (hown : d.pc.owning = true) {ch : Go.Chan Request} (hch : s.chans[d.ch]? = some ch) :
    ch.closed = false :=
  ((ho.chan_of_delayer hd hch).owning hown).1

theorem pc_ne_lockClosed (ho : Ownership s) (hd : s.delayers[j]? = some d) :
    d.pc ≠ .lockClosed := by
  intro hpc
  obtain ⟨ch, -, hslot⟩ := ho.slot_of_delayer hd
  rcases hslot.state with ⟨h, -⟩ | ⟨h, -⟩ <;> rw [hpc] at h <;> cases h

/-!
## One transition keeps the invariant
-/

theorem of_processor (ho : Ownership s) (hchans : s'.chans = s.chans)
    (hdel : s'.delayers = s.delayers) (htable : s'.activeDelayers = s.activeDelayers)
    (hpanic : s'.panic = s.panic)
    (hmu : s'.mu = true ↔ exists r c, s'.processor = .send r c)
    (hsend : forall r c, s'.processor = .send r c -> s.activeDelayers r.uid = some c)
    (hcall : forall r, s'.processor = .call r -> s.activeDelayers r.uid = none) :
    Ownership s' where
  length_eq := by rw [hchans, hdel]; exact ho.length_eq
  slot := by rw [hchans, hdel, htable]; exact ho.slot
  entry := by rw [hdel, htable]; exact ho.entry
  mu_iff := hmu
  send_entry := by rw [htable]; exact hsend
  call_entry := by rw [htable]; exact hcall
  no_panic := by rw [hpanic]; exact ho.no_panic

theorem of_set_slot (ho : Ownership s) (hd : s.delayers[j]? = some d) {ch : Go.Chan Request}
    (hch : s.chans[j]? = some ch) (pc : DelayerPc) (ch' : Go.Chan Request)
    (hnew : SlotOk s.activeDelayers j { d with pc := pc } ch')
    (hchans : s'.chans = s.chans.set j ch')
    (hdel : s'.delayers = s.delayers.set j { d with pc := pc })
    (htable : s'.activeDelayers = s.activeDelayers) (hproc : s'.processor = s.processor)
    (hmu : s'.mu = s.mu) (hpanic : s'.panic = s.panic) : Ownership s' where
  length_eq := by simp [hchans, hdel, ho.length_eq]
  slot := by
    rw [hchans, hdel, htable]
    exact slots_set (fun i e c _ => ho.slot i e c) hd hch hnew
  entry K c h := by
    rw [htable] at h
    rw [hdel, uid_set_pc hd]
    exact ho.entry K c h
  mu_iff := by rw [hmu, hproc]; exact ho.mu_iff
  send_entry := by rw [hproc, htable]; exact ho.send_entry
  call_entry := by rw [hproc, htable]; exact ho.call_entry
  no_panic := by rw [hpanic]; exact ho.no_panic

/-- Lines 46-50 keep the invariant. -/
theorem spawn (ho : Ownership s) {r : Request} (hmu : s.mu = false)
    (hnone : s.activeDelayers r.uid = none) : Ownership (s.spawn r) where
  length_eq := by simp [State.spawn, ho.length_eq]
  slot := by
    intro i e c he hc
    simp only [State.spawn, List.getElem?_append] at he hc ⊢
    by_cases hi : i < s.delayers.length
    · rw [if_pos hi] at he
      rw [if_pos (ho.length_eq ▸ hi)] at hc
      refine (ho.slot i e c he hc).congr_table ?_
      by_cases hu : e.uid = r.uid
      · rw [hu, Function.update_same, hnone]
        simp only [Option.some.injEq, reduceCtorEq, iff_false]
        have := ho.length_eq
        omega
      · rw [Function.update_noteq hu]
    · rw [if_neg hi] at he
      rw [if_neg (ho.length_eq ▸ hi)] at hc
      have hi' : i = s.delayers.length := by
        by_contra hne
        rw [List.getElem?_eq_none (by simp; omega)] at he
        cases he
      subst hi'
      simp only [Nat.sub_self, List.getElem?_cons_zero, Option.some.injEq, ← ho.length_eq] at he hc
      subst he hc
      refine ⟨ho.length_eq, by simp, by simp [DelayerPc.hand], .inr ⟨rfl, rfl, ?_⟩⟩
      simp [ho.length_eq]
  entry K c h := by
    simp only [State.spawn] at h ⊢
    by_cases hK : K = r.uid
    · subst hK
      rw [Function.update_same, Option.some.injEq] at h
      subst h
      rw [ho.length_eq, List.getElem?_concat_length]
      rfl
    · rw [Function.update_noteq hK] at h
      have he := ho.entry K c h
      have hc : c < s.delayers.length := by
        by_contra hc
        rw [List.getElem?_eq_none (by omega)] at he
        cases he
      rw [List.getElem?_append_left hc]
      exact he
  mu_iff := by simp [State.spawn, hmu]
  send_entry := by simp [State.spawn]
  call_entry := by simp [State.spawn]
  no_panic := ho.no_panic

/-- The send of line 39 keeps the invariant: it goes into the channel of the
delayer that owns the request's key. -/
theorem send (ho : Ownership s) {r : Request} {ch : Go.Chan Request} (hpc : s.processor = .send r c)
    (hch : s.chans[c]? = some ch) :
    Ownership { s.setChan c { ch with buf := ch.buf ++ [r] } with
                processor := .recv, mu := false } := by
  obtain ⟨d, ch', hd, hch', hu, hown, -⟩ := ho.owner_of_entry (ho.send_entry r c hpc)
  rw [hch] at hch'
  cases hch'
  have hslot := ho.slot c d ch hd hch
  have htab := (hslot.owning hown).2
  have hnew : SlotOk s.activeDelayers c d { ch with buf := ch.buf ++ [r] } := by
    refine ⟨hslot.ch_eq, ?_, hslot.hand_uid, .inr ⟨hown, (hslot.owning hown).1, htab⟩⟩
    intro x hx
    rcases List.mem_append.mp hx with hx | hx
    · exact hslot.buf_uid x hx
    · rw [List.mem_singleton.mp hx, hu]
  have hslots := slots_set (fun i e c _ => ho.slot i e c) hd hch hnew
  rw [set_of_getElem? hd] at hslots
  exact ⟨by simp [State.setChan, ho.length_eq], hslots, ho.entry, by simp,
    by simp, by simp, ho.no_panic⟩

/-- The delete and close of lines 109-110 keep the invariant. -/
theorem retire (ho : Ownership s) (hd : s.delayers[j]? = some d) {ch : Go.Chan Request}
    (hpc : d.pc = .lockTimer) (hbuf : ch.buf = []) (hmu : s.mu = false)
    (hch : s.chans[d.ch]? = some ch) :
    Ownership (((s.unregister j d).setChan d.ch { ch with closed := true }).setPc j d .exited) := by
  have hslot := ho.chan_of_delayer hd hch
  have htab : s.activeDelayers d.uid = some j := (hslot.owning (by rw [hpc]; rfl)).2
  rw [hslot.ch_eq] at hch ⊢
  have hnew : SlotOk (Function.update s.activeDelayers d.uid none) j
      { d with pc := .exited } { ch with closed := true } :=
    ⟨hslot.ch_eq, by simp [hbuf], by simp [DelayerPc.hand], .inl ⟨rfl, hbuf, rfl, by simp⟩⟩
  refine ⟨by simp [State.setPc, State.setChan, State.unregister, ho.length_eq], ?_, ?_,
    ho.mu_iff, ?_, ?_, ho.no_panic⟩
  · show forall i e c, (s.delayers.set j { d with pc := .exited })[i]? = some e ->
        (s.chans.set j { ch with closed := true })[i]? = some c ->
        SlotOk (Function.update s.activeDelayers d.uid none) i e c
    refine slots_set (fun i e c hij he hc => (ho.slot i e c he hc).congr_table ?_) hd hch hnew
    by_cases hu : e.uid = d.uid
    · rw [hu, Function.update_same, htab]
      simp only [reduceCtorEq, Option.some.injEq, false_iff]
      exact Ne.symm hij
    · rw [Function.update_noteq hu]
  · intro K c h
    simp only [State.setPc, State.setChan, State.unregister] at h ⊢
    by_cases hK : K = d.uid
    · rw [hK, Function.update_same] at h
      cases h
    · rw [Function.update_noteq hK] at h
      rw [uid_set_pc hd]
      exact ho.entry K c h
  · intro r c hsend
    have := ho.mu_iff.mpr ⟨r, c, hsend⟩
    rw [hmu] at this
    cases this
  · intro r hcall
    simp only [State.setPc, State.setChan, State.unregister]
    rw [Function.update_apply]
    split
    · rfl
    · exact ho.call_entry r hcall

theorem step (ho : Ownership s) (ht : Transition s s') : Ownership s' := by
  cases ht with
  | produce => exact ho.of_processor rfl rfl rfl rfl ho.mu_iff ho.send_entry ho.call_entry
  | closeInput => exact ho.of_processor rfl rfl rfl rfl ho.mu_iff ho.send_entry ho.call_entry
  | recv hpc =>
      exact ho.of_processor rfl rfl rfl rfl (by simp [ho.mu_false (by simp [hpc])])
        (by simp) (by simp)
  | finish hpc =>
      exact ho.of_processor rfl rfl rfl rfl (by simp [ho.mu_false (by simp [hpc])])
        (by simp) (by simp)
  | route _ _ hc =>
      exact ho.of_processor rfl rfl rfl rfl (by simp) (by simp [hc]) (by simp)
  | spawn _ hmu hnone _ => exact ho.spawn hmu hnone
  | direct _ hmu hnone _ =>
      exact ho.of_processor rfl rfl rfl rfl (by simp [hmu]) (by simp) (by simp [hnone])
  | send hpc hch _ _ => exact ho.send hpc hch
  | sendClosed hpc hch hclosed =>
      obtain ⟨_, _, _, hch', -, -, hopen⟩ := ho.owner_of_entry (ho.send_entry _ _ hpc)
      rw [hch] at hch'
      cases hch'
      rw [hopen] at hclosed
      cases hclosed
  | callMain hpc =>
      exact ho.of_processor rfl rfl rfl rfl
        (by simp [State.callService, ho.mu_false (by simp [hpc])]) (by simp) (by simp)
  | @receive _ d ch r rest hd hpc hch hbuf =>
      have hslot := ho.chan_of_delayer hd hch
      have hown : d.pc.owning = true := by rcases hpc with h | h <;> rw [h] <;> rfl
      obtain ⟨hopen, htab⟩ := hslot.owning hown
      refine ho.of_set_slot hd (hslot.ch_eq ▸ hch) (.call r) { ch with buf := rest } ⟨hslot.ch_eq, ?_, ?_, .inr ⟨rfl, hopen, htab⟩⟩
        (by simp [State.setPc, State.setChan, hslot.ch_eq]) rfl rfl rfl rfl rfl
      · intro x hx
        exact hslot.buf_uid x (by rw [hbuf]; exact List.mem_cons_of_mem _ hx)
      · intro x hx
        rw [List.mem_singleton.mp hx]
        exact hslot.buf_uid _ (by rw [hbuf]; exact List.mem_cons_self _ _)
  | @receiveClosed _ d _ _ hd hpc hch _ hclosed =>
      have hown : d.pc.owning = true := by rcases hpc with ⟨h, -⟩ | ⟨h, -⟩ <;> rw [h] <;> rfl
      rw [ho.open_of_owning hd hown hch] at hclosed
      cases hclosed
  | callDelayer hd hpc =>
      obtain ⟨ch, hch, hslot⟩ := ho.slot_of_delayer hd
      refine ho.of_set_slot hd hch .select ch ⟨hslot.ch_eq, hslot.buf_uid, by simp [DelayerPc.hand], ?_⟩
        (set_of_getElem? hch).symm rfl rfl rfl rfl rfl
      exact .inr ⟨rfl, (hslot.owning (by rw [hpc]; rfl))⟩
  | fire hd hpc =>
      obtain ⟨ch, hch, hslot⟩ := ho.slot_of_delayer hd
      refine ho.of_set_slot hd hch .lockTimer ch ⟨hslot.ch_eq, hslot.buf_uid, by simp [DelayerPc.hand], ?_⟩
        (set_of_getElem? hch).symm rfl rfl rfl rfl rfl
      exact .inr ⟨rfl, (hslot.owning (by rw [hpc]; rfl))⟩
  | rearm hd hpc =>
      obtain ⟨ch, hch, hslot⟩ := ho.slot_of_delayer hd
      refine ho.of_set_slot hd hch .select ch ⟨hslot.ch_eq, hslot.buf_uid, by simp [DelayerPc.hand], ?_⟩
        (set_of_getElem? hch).symm rfl rfl rfl rfl rfl
      exact .inr ⟨rfl, (hslot.owning (by rw [hpc]; rfl))⟩
  | retire hd hcase hmu hch _ =>
      rcases hcase with ⟨hpc, hbuf, rfl⟩ | ⟨hpc, -⟩
      · exact ho.retire hd hpc hbuf hmu hch
      · exact absurd hpc (ho.pc_ne_lockClosed hd)
  | retireClosed hd hcase _ hch hclosed =>
      rcases hcase with ⟨hpc, -⟩ | hpc
      · rw [ho.open_of_owning hd (by rw [hpc]; rfl) hch] at hclosed
        cases hclosed
      · exact absurd hpc (ho.pc_ne_lockClosed hd)

theorem of_reachable (hs : Reachable s) : Ownership s := by
  induction hs with
  | start => exact init
  | next _ _ hstep ih => exact ih.step (step_transition hstep)

end Ownership

end DelayCall
