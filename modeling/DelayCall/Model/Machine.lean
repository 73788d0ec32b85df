import DelayCall.Model.Chan
import Mathlib.Logic.Function.Basic

/-!
# The dispatcher and its delayers as one machine

The state of package `delaycall` while `processor` runs: `externalCh`, the
mutex `mu`, the routing table `activeDelayers`, every per-key channel and every
`userDelayer` goroutine with the line it is at.  A `Move` names the party the
scheduler lets run next, and `step` runs it for one atomic action.

The atomic actions are the source's, grouped where nothing else can observe
the grouping: a critical section under `mu` that cannot block is one action,
and so are the lines a goroutine runs between two shared operations.  The
dispatcher's send at line 39 can block while it holds `mu`, so it stays a
place of its own (`ProcessorPc.send`).  Sleeps, timestamps and `Printf` are
not modelled; `callService` is the send of the request's id on `checkCh`,
recorded in `calls`.  A timer may fire at any moment after it is armed: in the
select of line 81 the move `timer j` is always enabled.

`calls`, `received` and `tableLog` are histories: no transition reads them.
-/

namespace DelayCall

/-- Where `processor` (lines 31-58) is. -/
inductive ProcessorPc where
  | recv                             -- line 33, `for req := range externalCh`
  | lock (req : Request)             -- line 34, `mu.Lock()`
  | send (req : Request) (ch : Nat)  -- line 39, `ch <- req` with `mu` held
  | call (req : Request)             -- line 56, `callService(req)`
  | exited                           -- `externalCh` closed and drained
  deriving DecidableEq, Repr

/-- Where a `userDelayer` goroutine (lines 61-118) is. -/
inductive DelayerPc where
  | recvFirst                -- line 65, `req, ok := <-ch`
  | lockClosed               -- line 67, `mu.Lock()` after the first receive saw `!ok`
  | call (req : Request)     -- line 74 or 89, `callService(req)`
  | select                   -- line 81, with the timer armed
  | lockTimer                -- line 100, `mu.Lock()` in the timer branch
  | exited                   -- returned at line 115, after the delete at line 109
  | returned                 -- returned at line 71 or 86, after `!ok`
  deriving DecidableEq, Repr

/-- A `userDelayer` goroutine: its key, the index of its channel, its place. -/
structure UserDelayer where
  uid : String
  ch : Nat
  pc : DelayerPc
  deriving DecidableEq, Repr

/-- A write to `activeDelayers`: `insert uid j` at line 47, where `processor`
spawns delayer `j`, and `delete uid j` at line 68 or 109, made by delayer `j`. -/
inductive TableOp where
  | insert (uid : String) (delayer : Nat)
  | delete (uid : String) (delayer : Nat)
  deriving DecidableEq, Repr

def TableOp.uid : TableOp -> String
  | .insert uid _ => uid
  | .delete uid _ => uid

/-- The package state together with the place of every goroutine.  `chans`
holds the per-key channels in the order line 46 made them; a channel is
named by its index. -/
structure State where
  externalCh : Go.Chan Request
  processor : ProcessorPc
  mu : Bool
  activeDelayers : String -> Option Nat
  chans : List (Go.Chan Request)
  delayers : List UserDelayer
  calls : List Request
  received : List Request
  tableLog : List TableOp
  panic : Option Go.Panic

namespace State

/-- Before `processor` starts: `init` has run and nothing was sent yet. -/
def init : State where
  externalCh := Go.Chan.empty
  processor := .recv
  mu := false
  activeDelayers := fun _ => none
  chans := []
  delayers := []
  calls := []
  received := []
  tableLog := []
  panic := none

/-- The ids `callService` has sent on `checkCh`, in order. -/
def checkCh (s : State) : List (BitVec 64) :=
  s.calls.map Request.id

def setChan (s : State) (c : Nat) (ch : Go.Chan Request) : State :=
  { s with chans := s.chans.set c ch }

def setPc (s : State) (j : Nat) (d : UserDelayer) (pc : DelayerPc) : State :=
  { s with delayers := s.delayers.set j { d with pc := pc } }

/-- `callService(r)` (lines 121-127): its id goes to `checkCh`. -/
def callService (s : State) (r : Request) : State :=
  { s with calls := s.calls ++ [r] }

/-- Lines 46-50: make a channel, enter it for `req.uid`, send `req` on it
(`Chan.empty_send`: the fresh buffer has room) and spawn its delayer. -/
def spawn (s : State) (req : Request) : State :=
  { s with
    chans := s.chans ++ [⟨[req], false⟩]
    activeDelayers := Function.update s.activeDelayers req.uid (some s.chans.length)
    delayers := s.delayers ++ [⟨req.uid, s.chans.length, .recvFirst⟩]
    tableLog := s.tableLog ++ [.insert req.uid s.delayers.length]
    processor := .recv }

/-- `delete(activeDelayers, uid)` by delayer `j` (line 68 or 109). -/
def unregister (s : State) (j : Nat) (d : UserDelayer) : State :=
  { s with
    activeDelayers := Function.update s.activeDelayers d.uid none
    tableLog := s.tableLog ++ [.delete d.uid j] }

/-- One step of `processor` (lines 31-58). -/
def processorStep (s : State) : Option State :=
  match s.processor with
  | .recv =>
      match s.externalCh.recv with
      | none => none
      | some (none, _) => some { s with processor := .exited }
      | some (some req, c) =>
          some { s with externalCh := c, processor := .lock req,
                        received := s.received ++ [req] }
  | .lock req =>
      if s.mu then none
      else
        match s.activeDelayers req.uid with
        | some ch => some { s with processor := .send req ch, mu := true }
        | none =>
            if req.needsDelay then some (s.spawn req)
            else some { s with processor := .call req }
  | .send req ch =>
      match s.chans[ch]? with
      | none => none
      | some c =>
          match c.send delayerCap req with
          | none => none
          | some (.error p) => some { s with panic := some p }
          | some (.ok c') => some { s.setChan ch c' with processor := .recv, mu := false }
  | .call req => some { s.callService req with processor := .recv }
  | .exited => none

/-- `<-ch` by delayer `j` at line 65 or 82; `onClosed` is where its `!ok`
branch leads. -/
def receive (s : State) (j : Nat) (d : UserDelayer) (onClosed : DelayerPc) :
    Option State :=
  match s.chans[d.ch]? with
  | none => none
  | some c =>
      match c.recv with
      | none => none
      | some (none, _) => some (s.setPc j d onClosed)
      | some (some req, c') => some ((s.setChan d.ch c').setPc j d (.call req))

/-- `delete(activeDelayers, uid); close(ch)` by delayer `j` under `mu`
(lines 68-69 and 109-110); `after` is where it then returns. -/
def retire (s : State) (j : Nat) (d : UserDelayer) (after : DelayerPc) :
    Option State :=
  match s.chans[d.ch]? with
  | none => none
  | some c =>
      match c.close with
      | .error p => some { s.unregister j d with panic := some p }
      | .ok c' => some (((s.unregister j d).setChan d.ch c').setPc j d after)

/-- One step of delayer `j` (lines 61-118); in the select it takes `<-ch`. -/
def delayerStep (s : State) (j : Nat) : Option State :=
  match s.delayers[j]? with
  | none => none
  | some d =>
      match d.pc with
      | .recvFirst => s.receive j d .lockClosed
      | .lockClosed => if s.mu then none else s.retire j d .returned
      | .call req => some ((s.callService req).setPc j d .select)
      | .select => s.receive j d .returned
      | .lockTimer =>
          if s.mu then none
          else
            match s.chans[d.ch]? with
            | none => none
            | some c =>
                if 0 < c.buf.length then some (s.setPc j d .select)
                else s.retire j d .exited
      | .exited => none
      | .returned => none

/-- Delayer `j`'s timer fires and its select takes `<-timer.C` (line 99). -/
def timerStep (s : State) (j : Nat) : Option State :=
  match s.delayers[j]? with
  | none => none
  | some d => if d.pc = .select then some (s.setPc j d .lockTimer) else none

end State

/-- Who the scheduler lets run next.  The request source may send any request
on `externalCh` and close it once; it sends nothing after closing. -/
inductive Move where
  | produce (r : Request)
  | closeInput
  | processor
  | delayer (j : Nat)
  | timer (j : Nat)
  deriving DecidableEq, Repr

/-- One atomic action; `none` when the chosen party is blocked or gone, and
after a runtime panic nothing moves. -/
def step (s : State) (m : Move) : Option State :=
  if s.panic.isSome then none
  else
    match m with
    | .produce r =>
        match s.externalCh.send externalCap r with
        | some (.ok c) => some { s with externalCh := c }
        | _ => none
    | .closeInput =>
        match s.externalCh.close with
        | .ok c => some { s with externalCh := c }
        | .error _ => none
    | .processor => s.processorStep
    | .delayer j => s.delayerStep j
    | .timer j => s.timerStep j

def run : State -> List Move -> Option State
  | s, [] => some s
  | s, m :: ms => (step s m).bind (fun s' => run s' ms)

@[simp] theorem run_nil (s : State) : run s [] = some s := rfl

theorem run_cons (s : State) (m : Move) (ms : List Move) :
    run s (m :: ms) = (step s m).bind (fun s' => run s' ms) := rfl

theorem run_append (s : State) (ms ms' : List Move) :
    run s (ms ++ ms') = (run s ms).bind (fun t => run t ms') := by
  induction ms generalizing s with
  | nil => rfl
  | cons m ms ih =>
      cases h : step s m with
      | none => simp [run_cons, h]
      | some s' => simp [run_cons, h, ih]

/-- The states some interleaving reaches from `State.init`. -/
inductive Reachable : State -> Prop where
  | start : Reachable State.init
  | next {s s' : State} (m : Move) : Reachable s -> step s m = some s' -> Reachable s'

theorem Reachable.run {s t : State} {ms : List Move} (hs : Reachable s)
    (h : run s ms = some t) : Reachable t := by
  induction ms generalizing s with
  | nil => cases h; exact hs
  | cons m ms ih =>
      rw [run_cons] at h
      cases hstep : step s m with
      | none => rw [hstep] at h; cases h
      | some s' =>
          rw [hstep] at h
          exact ih (hs.next m hstep) h

end DelayCall
