import DelayCall.TcpEcho.Session

/-!
# What the client reads

Two invariants hold in every state of every run, whatever the interleaving.

* `Stream`: the responses `SendMessage` has returned, one after another, are
  the bytes the client has read from the server's side of the stream.  Each
  is non-empty, and once `handleClient` has started, that side begins with the
  welcome.
* `Replied`: when every message the client sends is a `Line`, the server's
  side holds the welcome and then the replies to the first `j` messages in
  order.  Its scanner has consumed exactly those messages, each with its
  `\n`.

So the first response a `SendMessage` returns is a part of the welcome, or
begins with the whole welcome (`first_response_welcome`): the client's first
response is never the reply to its own message.
-/

namespace TcpEcho

variable {clientID : String} {s s' : Session} {m : Move}

/-- The responses are the bytes read so far, each non-empty, from a stream
that begins with the welcome once `handleClient` has written it. -/
structure Stream (clientID : String) (s : Session) : Prop where
  read_le : s.read ≤ s.written.length
  responses : (s.responses.filterMap id).flatten = s.written.take s.read
  nonempty : forall r, some r ∈ s.responses -> r ≠ []
  welcome : s.handler = .welcome ∧ s.written = [] ∨ welcome clientID <+: s.written

namespace Stream

theorem init : Stream clientID .init where
  read_le := le_rfl
  responses := rfl
  nonempty _ h := absurd h (List.not_mem_nil _)
  welcome := .inl ⟨rfl, rfl⟩

theorem append (hS : Stream clientID s) {w : List UInt8} (hw : s'.written = s.written ++ w)
    (hr : s'.read = s.read) (hresp : s'.responses = s.responses)
    (hwel : TcpEcho.welcome clientID <+: s'.written) : Stream clientID s' where
  read_le := by
    rw [hr, hw, List.length_append]
    exact Nat.le_add_right_of_le hS.read_le
  responses := by rw [hresp, hS.responses, hr, hw, List.take_append_of_le_length hS.read_le]
  nonempty := hresp ▸ hS.nonempty
  welcome := .inr hwel

theorem step (hS : Stream clientID s) (hs : step clientID s m = some s') :
    Stream clientID s' := by
  obtain ⟨hle, hresp, hne, hwel⟩ := hS
  cases m with
  | send _ | close =>
    simp only [TcpEcho.step] at hs
    split_ifs at hs
    cases hs
    exact ⟨hle, hresp, hne, hwel⟩
  | sendError | recvError =>
    simp only [TcpEcho.step] at hs
    split_ifs at hs
    cases hs
    refine ⟨hle, by simpa using hresp, fun r hr => ?_, hwel⟩
    rcases List.mem_append.mp hr with hr | hr
    · exact hne r hr
    · simp at hr
  | recv n =>
    simp only [TcpEcho.step] at hs
    split_ifs at hs with hc
    cases hs
    obtain ⟨-, hn, -, hlen⟩ := hc
    refine ⟨hlen, ?_, fun r hr => ?_, hwel⟩
    · simp only [List.filterMap_append, List.filterMap_cons, List.filterMap_nil, id,
        List.flatten_append, List.flatten_cons, List.flatten_nil, List.append_nil, hresp]
      rw [← List.take_add, Nat.add_comm]
    · rcases List.mem_append.mp hr with hr | hr
      · exact hne r hr
      · obtain rfl := Option.some.inj (List.mem_singleton.mp hr)
        rw [← List.length_pos, List.length_take, List.length_drop]
        omega
  | welcome =>
    simp only [TcpEcho.step] at hs
    split_ifs at hs
    cases hs
    refine Stream.append ⟨hle, hresp, hne, hwel⟩ rfl rfl rfl ?_
    rcases hwel with ⟨-, hw⟩ | hw
    · simp [hw]
    · exact hw.trans (List.prefix_append _ _)
  | scan now clientIDs =>
    simp only [TcpEcho.step] at hs
    split_ifs at hs with hh
    have hwel' : TcpEcho.welcome clientID <+: s.written := hwel.resolve_left fun h => by
      rw [hh] at h
      cases h.1
    split at hs
    · cases hs
      exact Stream.append ⟨hle, hresp, hne, hwel⟩ rfl rfl rfl
        (hwel'.trans (List.prefix_append _ _))
    · cases hs
      exact ⟨hle, hresp, hne, .inr hwel'⟩
    · cases hs

theorem run (moves : List Move) (hS : Stream clientID s)
    (h : TcpEcho.run clientID s moves = some s') : Stream clientID s' :=
  run_preserves (fun hS hs => Stream.step hS hs) moves hS h

end Stream

/-- The first `k` messages the client sends are lines, and the next one, once
sent, is too long for the scanner. -/
structure LinesUntil (k : Nat) (messages : List (List UInt8)) : Prop where
  lines : ∀ message ∈ messages.take k, Line message
  long : ∀ message, messages[k]? = some message -> TooLong message

theorem LinesUntil.of_prefix {k : Nat} {l l' : List (List UInt8)} (hp : l <+: l')
    (h : LinesUntil k l') : LinesUntil k l := by
  obtain ⟨t, rfl⟩ := hp
  refine ⟨fun message hm => h.lines message ?_, fun message hm => h.long message ?_⟩
  · rw [List.take_append_eq_append_take]
    exact List.mem_append_left _ hm
  · rw [List.getElem?_append_left (List.getElem?_eq_some_iff.mp hm).1, hm]

/-- The server's side of the stream once `handleClient` has answered the first
`j` messages with `replies`: each reply is what an iteration of the loop
writes for its message, at some time and with some clients connected. -/
structure Replied (clientID : String) (s : Session) (j : Nat) (replies : List (List UInt8)) :
    Prop where
  le : j ≤ s.messages.length
  answered : List.Forall₂ (fun message reply => exists now clientIDs,
    (handleMessage now clientIDs message).1 = reply) (s.messages.take j) replies
  consumed : s.consumed = (sent (s.messages.take j)).length
  written : s.written = (if s.handler = .welcome then [] else welcome clientID) ++ replies.flatten
  fresh : s.handler = .welcome -> replies = []

namespace Replied

variable {j k : Nat} {replies : List (List UInt8)}

theorem init : Replied clientID .init 0 [] where
  le := Nat.zero_le _
  answered := .nil
  consumed := rfl
  written := rfl
  fresh _ := rfl

theorem scan (hR : Replied clientID s j replies) (hh : s.handler = .scan) {message : List UInt8}
    {rest : List (List UInt8)} (hd : s.messages.drop j = message :: rest) (now : Now)
    (clientIDs : List String) (b : Bool) :
    Replied clientID { s with
      consumed := s.consumed + (message.length + 1)
      written := s.written ++ (handleMessage now clientIDs message).1
      handler := if b then .exited else .scan } (j + 1)
      (replies ++ [(handleMessage now clientIDs message).1]) := by
  obtain ⟨hle, hans, hcon, hwr, -⟩ := hR
  have hj : s.messages[j]? = some message := by rw [← List.head?_drop, hd]; rfl
  have htake : s.messages.take (j + 1) = s.messages.take j ++ [message] := by
    rw [List.take_succ, hj]; rfl
  have hh' : (if b then HandlerPc.exited else .scan) ≠ .welcome := by split <;> nofun
  refine ⟨?_, ?_, ?_, ?_, fun h => absurd h hh'⟩
  · have := congrArg List.length hd
    simp only [List.length_drop, List.length_cons] at this
    show j + 1 ≤ s.messages.length
    omega
  · rw [htake]
    exact List.rel_append hans (.cons ⟨now, clientIDs, rfl⟩ .nil)
  · simp only [htake, hcon, sent_append, sent_cons, sent_nil, List.length_append,
      List.length_cons, List.length_nil]
  · simp only [hwr, hh, if_neg hh', List.flatten_append, List.flatten_cons, List.flatten_nil,
      List.append_nil, List.append_assoc]
    rfl

theorem exit (hR : Replied clientID s j replies) (hh : s.handler = .scan) :
    Replied clientID { s with handler := .exited } j replies :=
  ⟨hR.le, hR.answered, hR.consumed, by simpa [hh] using hR.written, fun h => (nomatch h)⟩

theorem step (hk : LinesUntil k s.messages) (hj : j ≤ k) (hR : Replied clientID s j replies)
    (hs : TcpEcho.step clientID s m = some s') :
    exists j' replies', j' ≤ k ∧ Replied clientID s' j' replies' := by
  cases m with
  | send message =>
    simp only [TcpEcho.step] at hs
    split_ifs at hs
    cases hs
    obtain ⟨hle, hans, hcon, hwr, hfr⟩ := hR
    have htake : (s.messages ++ [message]).take j = s.messages.take j :=
      List.take_append_of_le_length hle
    refine ⟨j, replies, hj, ?_, htake ▸ hans, htake ▸ hcon, hwr, hfr⟩
    simp only [List.length_append]
    omega
  | sendError | recv _ | recvError | close =>
    simp only [TcpEcho.step] at hs
    split_ifs at hs
    cases hs
    exact ⟨j, replies, hj, hR.le, hR.answered, hR.consumed, hR.written, hR.fresh⟩
  | welcome =>
    simp only [TcpEcho.step] at hs
    split_ifs at hs with hh
    cases hs
    obtain ⟨hle, hans, hcon, hwr, hfr⟩ := hR
    obtain rfl := hfr hh
    refine ⟨j, [], hj, hle, hans, hcon, ?_, fun h => (nomatch h)⟩
    simp [hwr, hh]
  | scan now clientIDs =>
    simp only [TcpEcho.step] at hs
    split_ifs at hs with hh
    have hdrop : (sent s.messages).drop s.consumed = sent (s.messages.drop j) := by
      rw [hR.consumed, drop_sent_take]
    rw [hdrop] at hs
    cases hd : s.messages.drop j with
    | nil =>
      rw [hd, sent_nil, scanLines_nil] at hs
      -- with nothing left to consume, `Scan` waits until the client closes its side
      cases hc : s.clientClosed <;> simp only [hc, Bool.false_eq_true, if_true, if_false] at hs
      · cases hs
      · cases hs
        exact ⟨j, replies, hj, hc ▸ hR.exit hh⟩
    | cons message rest =>
      have hmj : s.messages[j]? = some message := by rw [← List.head?_drop, hd]; rfl
      rw [hd, sent_cons] at hs
      rcases Nat.lt_or_ge j k with hlt | hge
      · -- a line before the `k`-th message is answered
        have hm : Line message := hk.lines message
          (List.getElem?_mem (by rw [List.getElem?_take, if_pos hlt, hmj]))
        rw [scanLines_line hm] at hs
        cases hs
        exact ⟨_, _, hlt, hR.scan hh hd now clientIDs _⟩
      · -- the `k`-th message makes `Scan` fail with `ErrTooLong`
        obtain rfl : j = k := by omega
        rw [scanLines_long (hk.long message hmj)] at hs
        cases hs
        exact ⟨j, replies, hge, hR.exit hh⟩

/-- In every run, the lines before the `k`-th message are answered in
order, and nothing after them. -/
theorem run (moves : List Move) (h : TcpEcho.run clientID .init moves = some s) (k : Nat)
    (hk : LinesUntil k s.messages) :
    exists j replies, j ≤ k ∧ Replied clientID s j replies := by
  refine run_preserves (P := fun s => LinesUntil k s.messages ->
    exists j replies, j ≤ k ∧ Replied clientID s j replies) ?_ moves
    (fun _ => ⟨0, [], Nat.zero_le _, init⟩) h hk
  intro s s' m hP hs hk'
  obtain ⟨j, replies, hj, hR⟩ := hP (hk'.of_prefix (step_messages hs))
  exact hR.step (hk'.of_prefix (step_messages hs)) hj hs

end Replied

/-- Whatever the interleaving, once every message the client has sent is a
`Line`, `handleClient` has written the welcome and then the replies to the
first `j` messages, one per message and in order, and its scanner has
consumed exactly those messages.  What the client has read is a prefix of
that stream. -/
theorem run_replies (clientID : String) (moves : List Move) (s : Session)
    (h : run clientID .init moves = some s) (hl : ∀ message ∈ s.messages, Line message) :
    exists j replies, j ≤ s.messages.length ∧
      List.Forall₂ (fun message reply => exists now clientIDs,
        (handleMessage now clientIDs message).1 = reply) (s.messages.take j) replies ∧
      s.consumed = (sent (s.messages.take j)).length ∧
      s.written = (if s.handler = .welcome then [] else welcome clientID) ++ replies.flatten ∧
      (s.responses.filterMap id).flatten <+: welcome clientID ++ replies.flatten := by
  obtain ⟨j, replies, -, hR⟩ := Replied.run moves h s.messages.length
    ⟨by rwa [List.take_length], fun _ hm => by simp at hm⟩
  refine ⟨j, replies, hR.le, hR.answered, hR.consumed, hR.written, ?_⟩
  rw [(Stream.run moves Stream.init h).responses]
  refine (List.take_prefix _ _).trans ?_
  rw [hR.written]
  split
  · simp [hR.fresh ‹_›]
  · exact List.prefix_rfl

/-- A client connected from `127.0.0.1:50000` sends the basic demonstration's
first message, and its `Read` gets 64 bytes once `handleClient` has answered
it. -/
def helloMoves : List Move :=
  [.welcome, .send (bytes "Hello, Server!"), .scan ⟨"2024-01-15", "10:30:00"⟩ ["client-127.0.0.1:50000"],
    .recv 64]

theorem run_replies_hello :
    exists s, run "client-127.0.0.1:50000" .init helloMoves = some s ∧
      exists j replies, j ≤ s.messages.length ∧
        List.Forall₂ (fun message reply => exists now clientIDs,
          (handleMessage now clientIDs message).1 = reply) (s.messages.take j) replies ∧
        s.consumed = (sent (s.messages.take j)).length ∧
        s.written = (if s.handler = .welcome then [] else welcome "client-127.0.0.1:50000") ++ replies.flatten ∧
        (s.responses.filterMap id).flatten <+: welcome "client-127.0.0.1:50000" ++ replies.flatten :=
  ⟨_, rfl, run_replies "client-127.0.0.1:50000" helloMoves _ rfl (by decide)⟩

/-- A message of `MaxScanTokenSize` bytes or more with no `\n` is never
answered, and no message after it is: in every run, the replies are to the
lines before it, and once those are answered the next `Scan` fails with
`ErrTooLong` and `handleClient` returns without writing. -/
theorem long_line_unanswered (clientID : String) (moves : List Move) (s : Session)
    (h : run clientID .init moves = some s) (k : Nat) (long : List UInt8)
    (hl : ∀ message ∈ s.messages.take k, Line message) (hk : s.messages[k]? = some long)
    (hlong : TooLong long) :
    exists j replies, j ≤ k ∧
      List.Forall₂ (fun message reply => exists now clientIDs,
        (handleMessage now clientIDs message).1 = reply) (s.messages.take j) replies ∧
      s.written = (if s.handler = .welcome then [] else welcome clientID) ++ replies.flatten ∧
      (j = k -> s.handler = .scan -> forall now clientIDs,
        step clientID s (.scan now clientIDs) = some { s with handler := .exited }) := by
  obtain ⟨j, replies, hj, hR⟩ := Replied.run moves h k ⟨hl, fun message hm => by
    rw [hk] at hm
    cases hm
    exact hlong⟩
  refine ⟨j, replies, hj, hR.answered, hR.written, ?_⟩
  rintro rfl hh now clientIDs
  have hd : s.messages.drop j = long :: s.messages.drop (j + 1) := by
    obtain ⟨hlt, hget⟩ := List.getElem?_eq_some_iff.mp hk
    rw [List.drop_eq_getElem_cons hlt, hget]
  simp [step, hh, hR.consumed, drop_sent_take, hd, scanLines_long hlong]

theorem long_line_after_hello :
    exists s, run "client-127.0.0.1:50000" .init
        (helloMoves ++ [.send (List.replicate maxScanTokenSize 65)]) = some s ∧
      exists j replies, j ≤ 1 ∧
        List.Forall₂ (fun message reply => exists now clientIDs,
          (handleMessage now clientIDs message).1 = reply) (s.messages.take j) replies ∧
        s.written = (if s.handler = .welcome then [] else welcome "client-127.0.0.1:50000") ++
          replies.flatten ∧
        (j = 1 -> s.handler = .scan -> forall now clientIDs,
          step "client-127.0.0.1:50000" s (.scan now clientIDs) =
            some { s with handler := .exited }) :=
  ⟨_, rfl, long_line_unanswered "client-127.0.0.1:50000"
    (helloMoves ++ [Move.send (List.replicate maxScanTokenSize 65)]) _ rfl 1
    (List.replicate maxScanTokenSize 65) (by decide) rfl
    ⟨fun h => absurd (List.eq_of_mem_replicate h) (by decide), (List.length_replicate _ _).ge⟩⟩

/-- The first response a `SendMessage` returns is not empty, and it is a part
of the welcome or begins with the whole welcome: `SendMessage` returns the
welcome, not the reply to its own message. -/
theorem first_response_welcome (clientID : String) (moves : List Move) (s : Session)
    (h : run clientID .init moves = some s) (r : List UInt8) (rs : List (List UInt8))
    (hr : s.responses.filterMap id = r :: rs) :
    r ≠ [] ∧ (r <+: welcome clientID ∨ welcome clientID <+: r) := by
  have hS := Stream.run moves Stream.init h
  have hmem : some r ∈ s.responses := by
    have : r ∈ s.responses.filterMap id := hr ▸ List.mem_cons_self r rs
    simpa using this
  have hne := hS.nonempty r hmem
  have hpre : r <+: s.written := by
    have : r <+: (s.responses.filterMap id).flatten := by
      rw [hr, List.flatten_cons]
      exact List.prefix_append _ _
    rw [hS.responses] at this
    exact this.trans (List.take_prefix _ _)
  refine ⟨hne, ?_⟩
  rcases hS.welcome with ⟨-, hw⟩ | hw
  · rw [hw] at hpre
    exact absurd (List.eq_nil_of_prefix_nil hpre) hne
  · exact List.prefix_or_prefix_of_prefix hpre hw

theorem first_response_hello :
    exists s r, run "client-127.0.0.1:50000" .init helloMoves = some s ∧ s.responses.filterMap id = [r] ∧
      r ≠ [] ∧ (r <+: welcome "client-127.0.0.1:50000" ∨ welcome "client-127.0.0.1:50000" <+: r) :=
  ⟨_, _, rfl, rfl, first_response_welcome "client-127.0.0.1:50000" helloMoves _ rfl _ [] rfl⟩

end TcpEcho
