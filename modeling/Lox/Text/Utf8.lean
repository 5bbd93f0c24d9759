/-!
Text from bytes. A byte sequence is read as UTF-8, and the first place where that fails is
reported with what is wrong there. A line feed ends a line, and in files and typed input a carriage
return, alone or before a line feed, counts as one.
-/
namespace Lox.Text

inductive DecodeFault where
  | start
  | continuation
  | endOfData
  deriving DecidableEq

/-- The bytes from `first` on, `count` of them, do not begin a character. -/
structure DecodeError where
  fault : DecodeFault
  byte : Nat
  first : Nat
  count : Nat
  deriving DecidableEq

/-- What a first byte promises: how many bytes follow, the bits it brings, and the range of the
second byte. -/
structure Lead where
  following : Nat
  bits : Nat
  low : Nat
  high : Nat

def lead? (b : Nat) : Option Lead :=
  if b < 0x80 then some ⟨0, b, 0x80, 0xbf⟩
  else if b < 0xc2 then none
  else if b < 0xe0 then some ⟨1, b % 0x20, 0x80, 0xbf⟩
  else if b = 0xe0 then some ⟨2, 0, 0xa0, 0xbf⟩
  else if b = 0xed then some ⟨2, 0xd, 0x80, 0x9f⟩
  else if b < 0xf0 then some ⟨2, b % 0x10, 0x80, 0xbf⟩
  else if b = 0xf0 then some ⟨3, 0, 0x90, 0xbf⟩
  else if b < 0xf4 then some ⟨3, b % 8, 0x80, 0xbf⟩
  else if b = 0xf4 then some ⟨3, 4, 0x80, 0x8f⟩
  else none

/-- Reads the bytes that follow a first one. On failure gives the fault and the number of
following bytes that were still good. -/
def follow : (following bits low high good : Nat) → List Nat →
    Except (DecodeFault × Nat) (Nat × List Nat)
  | 0, bits, _, _, _, rest => .ok (bits, rest)
  | _ + 1, _, _, _, good, [] => .error (.endOfData, good)
  | n + 1, bits, low, high, good, b :: rest =>
    if low ≤ b ∧ b ≤ high then follow n (bits * 64 + b % 64) 0x80 0xbf (good + 1) rest
    else .error (.continuation, good)

theorem length_follow_le {n bits low high good : Nat} {l rest : List Nat} {v : Nat}
    (h : follow n bits low high good l = .ok (v, rest)) : rest.length ≤ l.length := by
  induction n generalizing bits low high good l with
  | zero => simp [follow] at h; simp [h.2]
  | succ n ih =>
    cases l with
    | nil => simp [follow] at h
    | cons b l =>
      simp only [follow] at h
      split at h
      · exact Nat.le_succ_of_le (ih h)
      · simp at h

def decodeFrom (first : Nat) : List Nat → Except DecodeError (List Char)
  | [] => .ok []
  | b :: rest =>
    match lead? b with
    | none => .error ⟨.start, b, first, 1⟩
    | some lead =>
      match _h : follow lead.following lead.bits lead.low lead.high 0 rest with
      | .error (fault, good) => .error ⟨fault, b, first, good + 1⟩
      | .ok (code, rest) =>
        match decodeFrom (first + lead.following + 1) rest with
        | .error e => .error e
        | .ok cs => .ok (Char.ofNat code :: cs)
termination_by bytes => bytes.length
decreasing_by exact Nat.lt_succ_of_le (length_follow_le _h)

def decode (bytes : List Nat) : Except DecodeError (List Char) := decodeFrom 0 bytes

def unixLines : List Char → List Char
  | [] => []
  | '\r' :: '\n' :: r => '\n' :: unixLines r
  | '\r' :: r => '\n' :: unixLines r
  | c :: r => c :: unixLines r

/-- The lines of a text without their line feeds. A last line may lack its own; an empty one
after the last line feed does not count. -/
def lines : List Char → List (List Char)
  | [] => []
  | '\n' :: r => [] :: lines r
  | c :: r =>
    match lines r with
    | [] => [[c]]
    | line :: rest => (c :: line) :: rest

end Lox.Text
