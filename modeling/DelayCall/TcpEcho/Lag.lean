import DelayCall.TcpEcho.Replies

/-!
# The demonstration's responses lag

`demonstrateBasicEchoServer` calls `SendMessage` on five messages and prints
each response next to its message.  `SendMessage` writes its line and then
makes one `Read`, which returns with whatever bytes have arrived: nothing makes
it wait for the reply to the line it has just written.  When every `Read`
returns before `handleClient` has answered, the first `SendMessage` gets the
welcome and each later one gets the reply to the message before it
(`lagged_run`).  So the demonstration prints the welcome as the response to
`Hello, Server!` and each reply next to the message after its own
(`basic_demo_lags`).
-/

namespace TcpEcho

variable {clientID : String} {s : Session} {pending message : List UInt8}

/-- The demonstration's calls of `SendMessage` when each `Read` returns before
`handleClient` has answered the line just sent: the client writes a line, its
`Read` gets `pending`, the bytes that had arrived, and then `handleClient`
answers the line, which is what the next `Read` gets. -/
def lagMoves (now : Now) (clientIDs : List String) : List UInt8 -> List (List UInt8) -> List Move
  | _, [] => []
  | pending, message :: messages =>
    .send message :: .recv pending.length :: .scan now clientIDs ::
      lagMoves now clientIDs (handleMessage now clientIDs message).1 messages

/-- Between two calls of `SendMessage` in the lagged schedule: `handleClient`
waits in `Scan` with every line answered, and `pending`, the bytes the client
has not read, fit in one `Read`. -/
structure Lagging (s : Session) (pending : List UInt8) : Prop where
  handler : s.handler = .scan
  client : s.client = .idle
  connected : s.clientClosed = false
  consumed : s.consumed = (sent s.messages).length
  unread : s.written.drop s.read = pending
  nonempty : pending ≠ []
  fits : pending.length ≤ 1024

/-- One call of `SendMessage` in the lagged schedule returns `pending`, and
unless its line makes `handleClient` return, the client then waits for the
reply to that line. -/
theorem Lagging.exchange (hL : Lagging s pending) (hm : Line message) (now : Now)
    (clientIDs : List String) :
    exists s', run clientID s [.send message, .recv pending.length, .scan now clientIDs] =
        some s' ∧
      s'.responses = s.responses ++ [some pending] ∧
      ((handleMessage now clientIDs message).2 = false -> message ≠ [] ->
        (handleMessage now clientIDs message).1.length ≤ 1024 ->
        Lagging s' (handleMessage now clientIDs message).1) := by
  obtain ⟨hh, hc, hcl, hcon, hun, hne, hfit⟩ := hL
  have hlen : s.read + pending.length = s.written.length := by
    have := congrArg List.length hun
    have := List.length_pos.mpr hne
    rw [List.length_drop] at *
    omega
  have hread : (s.written.drop s.read).take pending.length = pending := by
    rw [hun, List.take_length]
  have hscan : (sent s.messages ++ (message ++ [10])).drop s.consumed = message ++ [10] := by
    rw [hcon, List.drop_left]
  refine ⟨{ s with
    messages := s.messages ++ [message]
    consumed := s.consumed + (message.length + 1)
    written := s.written ++ (handleMessage now clientIDs message).1
    read := s.read + pending.length
    handler := if (handleMessage now clientIDs message).2 then .exited else .scan
    responses := s.responses ++ [some pending] }, ?_, rfl, fun hq hm' hfit' => ?_⟩
  · simp [run, step, hh, hc, hcl, hlen, List.length_pos.mpr hne, hfit, hread, hscan,
      scanLines_line hm]
  · refine ⟨by simp [hq], hc, hcl, ?_, ?_, handleMessage_ne_nil now clientIDs hm', hfit'⟩
    · simp [hcon]
    · simp only [hlen, List.drop_left]

/-- Each `SendMessage` of the lagged schedule returns what the previous line
left unread: `pending` first, then the reply to each message but the last. -/
theorem Lagging.run_lagMoves (now : Now) (clientIDs : List String) :
    forall (messages : List (List UInt8)) {s : Session} {pending : List UInt8},
      Lagging s pending -> (∀ message ∈ messages, Line message ∧ message ≠ []) ->
      (∀ message ∈ messages.dropLast, (handleMessage now clientIDs message).2 = false) ->
      (∀ message ∈ messages, (handleMessage now clientIDs message).1.length ≤ 1024) ->
      exists s', run clientID s (lagMoves now clientIDs pending messages) = some s' ∧
        s'.responses = s.responses ++ ((pending :: messages.map fun message =>
          (handleMessage now clientIDs message).1).take messages.length).map some
  | [], s, _, _, _, _, _ => ⟨s, rfl, by simp⟩
  | [message], _, _, hL, hl, _, _ => by
    obtain ⟨s₁, h₁, hr₁, -⟩ := hL.exchange (hl message (List.mem_singleton_self _)).1 now clientIDs
    exact ⟨s₁, h₁, by simp [hr₁]⟩
  | message :: message' :: messages, s, pending, hL, hl, hq, hfit => by
    have hl₀ := hl message (List.mem_cons_self _ _)
    obtain ⟨s₁, h₁, hr₁, hL₁⟩ := hL.exchange hl₀.1 now clientIDs
    have hq' : ∀ m ∈ (message' :: messages).dropLast,
        (handleMessage now clientIDs m).2 = false := fun m hm =>
      hq m (by rw [List.dropLast_cons₂]; exact List.mem_cons_of_mem _ hm)
    obtain ⟨s', h', hr'⟩ := run_lagMoves now clientIDs (message' :: messages)
      (hL₁ (hq message (by simp [List.dropLast_cons₂])) hl₀.2 (hfit _ (List.mem_cons_self _ _)))
      (fun m hm => hl m (List.mem_cons_of_mem _ hm)) hq'
      (fun m hm => hfit m (List.mem_cons_of_mem _ hm))
    refine ⟨s', ?_, by simp [hr', hr₁]⟩
    show run clientID s ([.send message, .recv pending.length, .scan now clientIDs] ++ _) = _
    rw [run_append, h₁]
    exact h'

/-- When every `Read` returns before `handleClient` has answered the line just
sent, the first `SendMessage` returns the welcome and each later one the reply
to the message before it.  The messages are lines that are not empty, none
but the last makes `handleClient` return, and each response fits in the
`Read`'s buffer of 1024 bytes. -/
theorem lagged_run (clientID : String) (now : Now) (clientIDs : List String)
    (messages : List (List UInt8)) (hl : ∀ message ∈ messages, Line message ∧ message ≠ [])
    (hq : ∀ message ∈ messages.dropLast, (handleMessage now clientIDs message).2 = false)
    (hfit : ∀ r ∈ welcome clientID :: messages.map fun message =>
      (handleMessage now clientIDs message).1, r.length ≤ 1024) :
    exists s, run clientID .init (.welcome :: lagMoves now clientIDs (welcome clientID) messages) =
        some s ∧
      s.responses = ((welcome clientID :: messages.map fun message =>
        (handleMessage now clientIDs message).1).take messages.length).map some := by
  have hL : Lagging { Session.init with written := welcome clientID, handler := .scan }
      (welcome clientID) :=
    ⟨rfl, rfl, rfl, rfl, rfl, welcome_ne_nil clientID, hfit _ (List.mem_cons_self _ _)⟩
  exact hL.run_lagMoves now clientIDs messages hl hq
    (fun m hm => hfit _ (List.mem_cons_of_mem _ (List.mem_map_of_mem _ hm)))

/-- The messages `demonstrateBasicEchoServer` sends. -/
def basicMessages : List (List UInt8) :=
  ["Hello, Server!", "This is a test message", "/time", "/clients", "Final message"].map bytes

theorem basic_demo_lags :
    exists s, run "client-127.0.0.1:50000" .init (.welcome :: lagMoves ⟨"2024-01-15", "10:30:00"⟩ ["client-127.0.0.1:50000"]
        (welcome "client-127.0.0.1:50000") basicMessages) = some s ∧
      s.responses = [some (welcome "client-127.0.0.1:50000"),
        some (bytes "[ECHO] 10:30:00: Hello, Server!\n"),
        some (bytes "[ECHO] 10:30:00: This is a test message\n"),
        some (bytes "Server time: 2024-01-15 10:30:00\n"),
        some (bytes (clientList ["client-127.0.0.1:50000"]))] :=
  lagged_run "client-127.0.0.1:50000" ⟨"2024-01-15", "10:30:00"⟩ ["client-127.0.0.1:50000"] basicMessages (by decide)
    (by decide) (by decide)

end TcpEcho
