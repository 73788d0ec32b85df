import Mathlib.Data.List.Basic

/-!
# `bufio.Scanner` with `ScanLines`

`handleClient` (`networking/tcp-echo/main.go`) reads a connection with
`bufio.NewScanner(conn)`, whose split function is `ScanLines`.  A token is
the bytes up to the next `\n`, without the `\n` and without a `\r` just
before it.  At end of input, a last line with no `\n` is a token when it is
not empty.  The scanner's buffer grows to `MaxScanTokenSize` bytes at most.
When it is full and holds no `\n`, `Scan` fails with `ErrTooLong`.

`scanLines data atEOF` is what the next `Scan()` does with the bytes `data`
that the scanner has not consumed yet; `atEOF` means the peer has closed its
side.  Where the bytes are, in the scanner's buffer or still in the socket,
makes no difference to it.  A Go string or byte slice is a `List UInt8`.
-/

namespace TcpEcho

/-- The bytes of a Go string. -/
def bytes (s : String) : List UInt8 := s.toUTF8.data.toList

theorem bytes_newline : bytes "\n" = [10] := rfl

@[simp] theorem bytes_append (a b : String) : bytes (a ++ b) = bytes a ++ bytes b := by
  show (a ++ b).data.flatMap String.utf8EncodeChar = _
  rw [String.data_append, List.flatMap_append]
  rfl

/-- `bufio.MaxScanTokenSize`: the size the scanner's buffer grows to at
most. -/
def maxScanTokenSize : Nat := 64 * 1024

/-- `bytes.IndexByte(data, '\n')`. -/
def indexNewline : List UInt8 -> Option Nat
  | [] => none
  | b :: bs => if b = 10 then some 0 else (indexNewline bs).map (· + 1)

/-- `dropCR`: the bytes without a last `\r`. -/
def dropCR (data : List UInt8) : List UInt8 :=
  if data.getLast? = some 13 then data.dropLast else data

/-- What the next `scanner.Scan()` does. -/
inductive Scan
  /-- It returns `true`, consuming `advance` bytes, and `scanner.Text()` is
  `text`. -/
  | token (advance : Nat) (text : List UInt8)
  /-- It waits in `Read` for more bytes. -/
  | more
  /-- It returns `false`: at end of input, or with `ErrTooLong`. -/
  | done
  deriving DecidableEq, Repr

/-- `scanner.Scan()` with `ScanLines`, on the bytes `data` not consumed yet. -/
def scanLines (data : List UInt8) (atEOF : Bool) : Scan :=
  match indexNewline data with
  | some i => if i < maxScanTokenSize then .token (i + 1) (dropCR (data.take i)) else .done
  | none =>
    if maxScanTokenSize ≤ data.length then .done
    else if atEOF then (if data = [] then .done else .token data.length (dropCR data))
    else .more

/-- A message `ScanLines` gives back as it was sent: no `\n` in it, no `\r`
at its end, and short enough for the scanner's buffer with its `\n`. -/
def Line (message : List UInt8) : Prop :=
  10 ∉ message ∧ message.getLast? ≠ some 13 ∧ message.length < maxScanTokenSize

instance (message : List UInt8) : Decidable (Line message) :=
  inferInstanceAs (Decidable (_ ∧ _ ∧ _))

/-- A message `Scan` fails on with `ErrTooLong`: no `\n` in it, and the
scanner's buffer is full before its end. -/
def TooLong (message : List UInt8) : Prop :=
  10 ∉ message ∧ maxScanTokenSize ≤ message.length

instance (message : List UInt8) : Decidable (TooLong message) :=
  inferInstanceAs (Decidable (_ ∧ _))

theorem indexNewline_append {message : List UInt8} (h : 10 ∉ message) (rest : List UInt8) :
    indexNewline (message ++ rest) = (indexNewline rest).map (· + message.length) := by
  induction message with
  | nil => simp
  | cons b bs ih =>
    have hb : b ≠ 10 := fun hb => h (hb ▸ List.mem_cons_self b bs)
    rw [List.cons_append, indexNewline, if_neg hb, ih (fun h' => h (List.mem_cons_of_mem b h')),
      Option.map_map]
    rfl

theorem scanLines_line {message : List UInt8} (h : Line message) (rest : List UInt8)
    (atEOF : Bool) :
    scanLines (message ++ 10 :: rest) atEOF = .token (message.length + 1) message := by
  obtain ⟨hn, hr, hl⟩ := h
  simp [scanLines, indexNewline_append hn, indexNewline, hl, dropCR, hr]

theorem scanLines_nil (atEOF : Bool) : scanLines [] atEOF = if atEOF then .done else .more := by
  cases atEOF <;> rfl

/-- A line of `MaxScanTokenSize` bytes or more fills the buffer before its
`\n` arrives, and `Scan` fails with `ErrTooLong`. -/
theorem scanLines_long {message : List UInt8} (h : TooLong message) (rest : List UInt8)
    (atEOF : Bool) : scanLines (message ++ rest) atEOF = .done := by
  obtain ⟨hn, hl⟩ := h
  have hlen : maxScanTokenSize ≤ (message ++ rest).length := by
    rw [List.length_append]
    omega
  unfold scanLines
  rw [indexNewline_append hn]
  cases indexNewline rest with
  | none =>
    simp only [Option.map_none', if_pos hlen]
  | some i =>
    simp only [Option.map_some', ite_eq_right_iff]
    omega

end TcpEcho
