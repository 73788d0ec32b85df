import Mathlib.Data.List.Basic

/-!
# Buffered Go channels

A channel is its buffer, front first, and whether it was closed.  Its capacity
is passed to `Chan.send`, since one program makes channels of several
capacities.  A send blocks on a full buffer and panics on a closed channel.  A
receive blocks on an empty open channel and yields no value (`ok = false`) on
an empty closed one.  Closing a closed channel panics.  A nil channel, which
blocks every send and panics on close, is left to the programs that use one.
-/

namespace Go

/-- The runtime panics of channel operations. -/
inductive Panic where
  | sendOnClosed
  | closeOfClosed
  | closeOfNil
  deriving DecidableEq, Repr

/-- A buffered channel. -/
structure Chan (α : Type) where
  buf : List α
  closed : Bool
  deriving DecidableEq, Repr

namespace Chan

variable {α : Type} {c c' : Chan α} {cap : Nat} {v : α}

def empty : Chan α := ⟨[], false⟩

/-- `ch <- v` on a channel of capacity `cap`: `none` while it blocks. -/
def send (c : Chan α) (cap : Nat) (v : α) : Option (Except Panic (Chan α)) :=
  if c.closed then some (.error .sendOnClosed)
  else if c.buf.length < cap then some (.ok { c with buf := c.buf ++ [v] })
  else none

/-- `v, ok := <-ch`: `none` while it blocks, otherwise the value (`none` for
`ok = false`) and the channel after the receive. -/
def recv (c : Chan α) : Option (Option α × Chan α) :=
  match c.buf with
  | v :: rest => some (some v, { c with buf := rest })
  | [] => if c.closed then some (none, c) else none

/-- `close(ch)`. -/
def close (c : Chan α) : Except Panic (Chan α) :=
  if c.closed then .error .closeOfClosed else .ok { c with closed := true }

@[simp] theorem empty_buf : (empty : Chan α).buf = [] := rfl

@[simp] theorem empty_closed : (empty : Chan α).closed = false := rfl

@[simp] theorem recv_empty : (empty : Chan α).recv = none := rfl

theorem send_open (hc : c.closed = false) (hlen : c.buf.length < cap) :
    c.send cap v = some (.ok { c with buf := c.buf ++ [v] }) := by
  simp [send, hc, hlen]

theorem send_closed (hc : c.closed = true) : c.send cap v = some (.error .sendOnClosed) := by
  simp [send, hc]

theorem send_cases {r : Except Panic (Chan α)} (h : c.send cap v = some r) :
    (c.closed = false ∧ c.buf.length < cap ∧ r = .ok { c with buf := c.buf ++ [v] }) ∨
      (c.closed = true ∧ r = .error .sendOnClosed) := by
  unfold send at h
  split at h
  · exact .inr ⟨‹_›, (Option.some.inj h).symm⟩
  · split at h
    · exact .inl ⟨by simpa using ‹¬c.closed = true›, ‹_›, (Option.some.inj h).symm⟩
    · cases h

theorem recv_cons {rest : List α} {closed : Bool} :
    (⟨v :: rest, closed⟩ : Chan α).recv = some (some v, ⟨rest, closed⟩) := rfl

theorem recv_of_buf {rest : List α} (hb : c.buf = v :: rest) :
    c.recv = some (some v, { c with buf := rest }) := by
  simp [recv, hb]

theorem recv_closed (hb : c.buf = []) (hc : c.closed = true) : c.recv = some (none, c) := by
  simp [recv, hb, hc]

theorem recv_cases {o : Option α} (h : c.recv = some (o, c')) :
    (exists v rest, c.buf = v :: rest ∧ o = some v ∧ c' = { c with buf := rest }) ∨
      (c.buf = [] ∧ c.closed = true ∧ o = none ∧ c' = c) := by
  unfold recv at h
  split at h
  · cases h
    exact .inl ⟨_, _, ‹_›, rfl, rfl⟩
  · split at h
    · cases h
      exact .inr ⟨‹_›, ‹_›, rfl, rfl⟩
    · cases h

theorem recv_closed_eq {o : Option α} (h : c.recv = some (o, c')) : c'.closed = c.closed := by
  rcases recv_cases h with ⟨_, _, _, _, rfl⟩ | ⟨_, _, _, rfl⟩ <;> rfl

theorem recv_eq_none (h : c.recv = none) : c.buf = [] ∧ c.closed = false := by
  unfold recv at h
  split at h
  · cases h
  · exact ⟨‹_›, by simpa using h⟩

theorem empty_send (hcap : 0 < cap) : (empty : Chan α).send cap v = some (.ok ⟨[v], false⟩) := by
  simp [empty, send, hcap]

theorem send_eq_some_ok (h : c.send cap v = some (.ok c')) :
    c.closed = false ∧ c.buf.length < cap ∧ c' = { c with buf := c.buf ++ [v] } := by
  rcases send_cases h with ⟨hc, hlen, h⟩ | ⟨-, h⟩ <;> cases h
  exact ⟨hc, hlen, rfl⟩

theorem send_eq_some_error {p : Panic} (h : c.send cap v = some (.error p)) :
    c.closed = true ∧ p = .sendOnClosed := by
  rcases send_cases h with ⟨-, -, h⟩ | ⟨hc, h⟩ <;> cases h
  exact ⟨hc, rfl⟩

theorem send_eq_none (h : c.send cap v = none) : c.closed = false ∧ cap ≤ c.buf.length := by
  unfold send at h
  split at h
  · cases h
  · split at h
    · cases h
    · exact ⟨by simpa using ‹¬c.closed = true›, by omega⟩

theorem recv_eq_some_some (h : c.recv = some (some v, c')) :
    exists rest, c.buf = v :: rest ∧ c' = { c with buf := rest } := by
  rcases recv_cases h with ⟨_, rest, hb, ho, rfl⟩ | ⟨-, -, ho, -⟩ <;> cases ho
  exact ⟨rest, hb, rfl⟩

theorem recv_eq_some_none (h : c.recv = some (none, c')) :
    c.buf = [] ∧ c.closed = true ∧ c' = c := by
  rcases recv_cases h with ⟨_, _, -, ho, -⟩ | ⟨hb, hc, -, rfl⟩
  · cases ho
  · exact ⟨hb, hc, rfl⟩

theorem close_open (hc : c.closed = false) : c.close = .ok { c with closed := true } := by
  simp [close, hc]

theorem close_closed (hc : c.closed = true) : c.close = .error .closeOfClosed := by
  simp [close, hc]

theorem close_eq_ok (h : c.close = .ok c') : c.closed = false ∧ c' = { c with closed := true } := by
  unfold close at h
  split at h
  · cases h
  · cases h
    exact ⟨by simpa using ‹¬c.closed = true›, rfl⟩

theorem close_eq_error {p : Panic} (h : c.close = .error p) :
    c.closed = true ∧ p = .closeOfClosed := by
  unfold close at h
  split at h
  · cases h
    exact ⟨‹_›, rfl⟩
  · cases h

end Chan

end Go
