import LoxLex.Text.Basic

/-!
# UTF-8

`encode` writes a text as bytes. `decode` reads bytes strictly: a lead byte fixes the ranges of the
bytes that must follow it, which rules out overlong forms, surrogates and code points above
0x10FFFF, and the first sequence that breaks off is reported as a `Fault` with the bytes of it that
were in order. A byte order mark is a character like any other.
-/

namespace LoxLex.Utf8

abbrev Bytes := List UInt8

def encode (t : Text) : Bytes := t.flatMap String.utf8EncodeChar

/-- A range of byte values, both ends included. -/
structure ByteRange where
  first : UInt8
  last : UInt8

def ByteRange.contains (r : ByteRange) (b : UInt8) : Bool := r.first ≤ b && b ≤ r.last

def continuation : ByteRange := ⟨0x80, 0xBF⟩

/-- The ranges of the bytes that follow a lead byte; none if the byte starts no sequence. -/
def followers (lead : UInt8) : Option (List ByteRange) :=
  if lead < 0x80 then some []
  else if lead < 0xC2 then none
  else if lead < 0xE0 then some [continuation]
  else if lead = 0xE0 then some [⟨0xA0, 0xBF⟩, continuation]
  else if lead = 0xED then some [⟨0x80, 0x9F⟩, continuation]
  else if lead < 0xF0 then some [continuation, continuation]
  else if lead = 0xF0 then some [⟨0x90, 0xBF⟩, continuation, continuation]
  else if lead < 0xF4 then some [continuation, continuation, continuation]
  else if lead = 0xF4 then some [⟨0x80, 0x8F⟩, continuation, continuation]
  else none

/-- The bytes at the front that lie in the ranges, one by one. -/
def admitted : List ByteRange → Bytes → Bytes
  | r :: rs, b :: bs => if r.contains b then b :: admitted rs bs else []
  | _, _ => []

/-- The code point of a sequence: six bits from each byte after the lead byte. -/
def codePoint (lead : UInt8) (tail : Bytes) : Nat :=
  let high := if tail = [] then lead.toNat else lead.toNat % Nat.pow 2 (6 - tail.length)
  tail.foldl (fun n b => n * 64 + b.toNat % 64) high

inductive Reason where
  | invalidStart
  | invalidContinuation
  | unexpectedEnd
  deriving DecidableEq

/-- The first sequence that is not well formed: where it starts, its lead byte and the number of
bytes that were in order, the lead byte included. -/
structure Fault where
  start : Nat
  lead : UInt8
  length : Nat
  reason : Reason
  deriving DecidableEq

/-- Reads the sequence that starts with `lead` at `start`: the character, and how many bytes of
`rest` belong to it. -/
def decodeChar (start : Nat) (lead : UInt8) (rest : Bytes) : Except Fault (Char × Nat) :=
  match followers lead with
  | none => .error ⟨start, lead, 1, .invalidStart⟩
  | some ranges =>
    let tail := admitted ranges rest
    if tail.length = ranges.length then .ok (Char.ofNat (codePoint lead tail), tail.length)
    else
      let reason := if tail.length = rest.length then .unexpectedEnd else .invalidContinuation
      .error ⟨start, lead, 1 + tail.length, reason⟩

/-- Reads `bytes`, which start at `start`, after the characters `before` in reverse. -/
def decodeFrom (before : Text) (start : Nat) (bytes : Bytes) : Except Fault Text :=
  match bytes with
  | [] => .ok before.reverse
  | lead :: rest =>
    match decodeChar start lead rest with
    | .error fault => .error fault
    | .ok (c, n) => decodeFrom (c :: before) (start + 1 + n) (rest.drop n)
  termination_by bytes.length

def decode (bytes : Bytes) : Except Fault Text := decodeFrom [] 0 bytes

def Reason.message : Reason → Text
  | .invalidStart => "invalid start byte".toList
  | .invalidContinuation => "invalid continuation byte".toList
  | .unexpectedEnd => "unexpected end of data".toList

/-- The bad bytes by value if there is one and by position if there are several. -/
def Fault.message (f : Fault) : Text :=
  let place :=
    if f.length = 1 then
      "byte 0x".toList ++ Text.hexDigits 2 f.lead.toNat ++ " in position ".toList ++
        Text.decimal f.start
    else
      "bytes in position ".toList ++ Text.decimal f.start ++ '-' ::
        Text.decimal (f.start + f.length - 1)
  "'utf-8' codec can't decode ".toList ++ place ++ ": ".toList ++ f.reason.message

end LoxLex.Utf8
