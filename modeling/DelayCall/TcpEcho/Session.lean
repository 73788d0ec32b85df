import DelayCall.TcpEcho.Scan
import Mathlib.Data.List.Forall2

/-!
# One connection of the echo server

`handleClient` runs on the server's side of a connection.  It writes a
welcome, then loops on `scanner.Scan()` and writes a reply to each line.  It
returns at `/quit` or `/exit`, or when `Scan` fails: when the client has
closed its side, or at a line too long for the scanner.  On the client's side,
`SendMessage(message)` writes `message + "\n"` and then makes one `Read` of at
most 1024 bytes, with a deadline of five seconds.

A connection is two byte streams.  `messages` holds what `SendMessage` was
called with, so the client has written `sent messages`, and `consumed` counts
the bytes of those that `handleClient`'s scanner has consumed.  `written`
holds every byte `handleClient` has written, and `read` counts those the
client has read.  A `Read` gets any number of the bytes that have arrived, at
least one and at most the 1024 of its buffer.  `time.Now()` and the order in
which `range` visits `s.clients` come from outside the connection, so they are
part of the move that makes an iteration of the loop.

Whatever the interleaving, the server's side of the stream is the welcome and
then one reply per message, in order (`run_replies`).  So the first response a
`SendMessage` returns is part of the welcome, not the reply to its own message
(`first_response_welcome`).
-/

namespace TcpEcho

/-- `time.Now()` as `handleClient` formats it: `2006-01-02` and
`15:04:05`. -/
structure Now where
  date : String
  clock : String
  deriving DecidableEq, Repr

/-- `sendClientList`'s text, with the client IDs in the order `range
s.clients` visits them. -/
def clientList (clientIDs : List String) : String :=
  "Connected clients:\n" ++ String.join (clientIDs.map fun id => "- " ++ id ++ "\n") ++
    "Total: " ++ toString clientIDs.length ++ " clients\n"

/-- The welcome `handleClient` writes first, to the client `clientID`. -/
def welcome (clientID : String) : List UInt8 :=
  bytes ("Welcome to TCP Echo Server! You are " ++ clientID ++ "\n")

/-- An iteration of `handleClient`'s loop on the line `message`: what it
writes, and whether it then returns. -/
def handleMessage (now : Now) (clientIDs : List String) (message : List UInt8) :
    List UInt8 × Bool :=
  if message = [] then ([], false)
  else if message = bytes "/quit" ∨ message = bytes "/exit" then (bytes "Goodbye!\n", true)
  else if message = bytes "/clients" then (bytes (clientList clientIDs), false)
  else if message = bytes "/time" then
    (bytes ("Server time: " ++ now.date ++ " " ++ now.clock ++ "\n"), false)
  else (bytes ("[ECHO] " ++ now.clock ++ ": ") ++ message ++ bytes "\n", false)

theorem welcome_ne_nil (clientID : String) : welcome clientID ≠ [] := by
  simp only [welcome, bytes_append]
  repeat apply List.append_ne_nil_of_left_ne_nil
  decide

theorem handleMessage_ne_nil (now : Now) (clientIDs : List String) {message : List UInt8}
    (h : message ≠ []) : (handleMessage now clientIDs message).1 ≠ [] := by
  unfold handleMessage
  split_ifs with h₀
  · exact absurd h₀ h
  all_goals
    simp only [clientList, bytes_append]
    repeat apply List.append_ne_nil_of_left_ne_nil
    decide

/-- The bytes of `message + "\n"` for each message. -/
def sent (messages : List (List UInt8)) : List UInt8 :=
  (messages.map fun message => message ++ bytes "\n").flatten

@[simp] theorem sent_nil : sent [] = [] := rfl

@[simp] theorem sent_append (l l' : List (List UInt8)) : sent (l ++ l') = sent l ++ sent l' := by
  simp [sent]

@[simp] theorem sent_cons (message : List UInt8) (l : List (List UInt8)) :
    sent (message :: l) = message ++ 10 :: sent l := by
  simp [sent, bytes_newline]

theorem drop_sent_take (l : List (List UInt8)) (j : Nat) :
    (sent l).drop (sent (l.take j)).length = sent (l.drop j) := by
  have := List.drop_left (sent (l.take j)) (sent (l.drop j))
  rwa [← sent_append, List.take_append_drop] at this

/-- Where `handleClient` is. -/
inductive HandlerPc
  /-- About to write the welcome. -/
  | welcome
  /-- At `scanner.Scan()`. -/
  | scan
  /-- Returned: its deferred function has closed the connection. -/
  | exited
  deriving DecidableEq, Repr

/-- Where the client is. -/
inductive ClientPc
  /-- Between calls of `SendMessage`. -/
  | idle
  /-- In `SendMessage`, at `c.conn.Read(response)`. -/
  | reading
  deriving DecidableEq, Repr

/-- A connection between a `TCPClient` and `handleClient`.  `responses` holds
what each `SendMessage` has returned, `none` for an error. -/
structure Session where
  messages : List (List UInt8)
  consumed : Nat
  clientClosed : Bool
  written : List UInt8
  read : Nat
  handler : HandlerPc
  client : ClientPc
  responses : List (Option (List UInt8))
  deriving DecidableEq, Repr

/-- Right after `Accept` and `Connect`. -/
def Session.init : Session := ⟨[], 0, false, [], 0, .welcome, .idle, []⟩

/-- A move of the client or of `handleClient`. -/
inductive Move
  /-- `SendMessage(message)` writes `message + "\n"`. -/
  | send (message : List UInt8)
  /-- `SendMessage`'s `Write` fails: the client or the server has closed the
  connection. -/
  | sendError
  /-- `SendMessage`'s `Read` returns `n` bytes. -/
  | recv (n : Nat)
  /-- `SendMessage`'s `Read` fails with nothing to read: at end of input once
  the server has closed the connection, or at the deadline. -/
  | recvError
  /-- `TCPClient.Close()`. -/
  | close
  /-- `handleClient` writes the welcome. -/
  | welcome
  /-- `scanner.Scan()` in `handleClient`, and the iteration of the loop it
  starts, at time `now` with `clientIDs` in `s.clients`. -/
  | scan (now : Now) (clientIDs : List String)
  deriving DecidableEq, Repr

def step (clientID : String) (s : Session) : Move -> Option Session
  | .send message =>
    if s.client = .idle ∧ s.clientClosed = false then
      some { s with messages := s.messages ++ [message], client := .reading }
    else none
  | .sendError =>
    if s.client = .idle ∧ (s.clientClosed = true ∨ s.handler = .exited) then
      some { s with responses := s.responses ++ [none] }
    else none
  | .recv n =>
    if s.client = .reading ∧ 0 < n ∧ n ≤ 1024 ∧ s.read + n ≤ s.written.length then
      some { s with
        read := s.read + n
        client := .idle
        responses := s.responses ++ [some ((s.written.drop s.read).take n)] }
    else none
  | .recvError =>
    if s.client = .reading ∧ s.read = s.written.length then
      some { s with client := .idle, responses := s.responses ++ [none] }
    else none
  | .close => if s.client = .idle then some { s with clientClosed := true } else none
  | .welcome =>
    if s.handler = .welcome then
      some { s with written := s.written ++ welcome clientID, handler := .scan }
    else none
  | .scan now clientIDs =>
    if s.handler = .scan then
      match scanLines ((sent s.messages).drop s.consumed) s.clientClosed with
      | .token advance text =>
        some { s with
          consumed := s.consumed + advance
          written := s.written ++ (handleMessage now clientIDs text).1
          handler := if (handleMessage now clientIDs text).2 then .exited else .scan }
      | .done => some { s with handler := .exited }
      | .more => none
    else none

def run (clientID : String) (s : Session) : List Move -> Option Session
  | [] => some s
  | m :: ms => (step clientID s m).bind fun s' => run clientID s' ms

theorem run_cons (clientID : String) (s : Session) (m : Move) (ms : List Move) :
    run clientID s (m :: ms) = (step clientID s m).bind fun s' => run clientID s' ms := rfl

theorem run_append (clientID : String) (s : Session) (l l' : List Move) :
    run clientID s (l ++ l') = (run clientID s l).bind fun s' => run clientID s' l' := by
  induction l generalizing s with
  | nil => rfl
  | cons m ms ih =>
    simp only [List.cons_append, run_cons, ih, Option.bind_assoc]

variable {clientID : String} {s s' : Session} {m : Move}

theorem run_preserves {P : Session -> Prop}
    (hP : forall {s s' m}, P s -> step clientID s m = some s' -> P s') :
    forall (moves : List Move) {s s' : Session}, P s -> run clientID s moves = some s' -> P s'
  | [], _, _, hs, h => by
    cases h
    exact hs
  | _ :: ms, _, _, hs, h => by
    obtain ⟨s₁, h₁, h₂⟩ := Option.bind_eq_some.mp h
    exact run_preserves hP ms (hP hs h₁) h₂

theorem step_messages (hs : step clientID s m = some s') : s.messages <+: s'.messages := by
  cases m with
  | send message =>
    simp only [step] at hs
    split_ifs at hs
    cases hs
    exact List.prefix_append _ _
  | scan now clientIDs =>
    simp only [step] at hs
    split_ifs at hs
    split at hs <;> cases hs <;> exact List.prefix_rfl
  | sendError | recv _ | recvError | close | welcome =>
    simp only [step] at hs
    split_ifs at hs
    cases hs
    exact List.prefix_rfl

end TcpEcho
