/-!
# UTF-8

`Utf8.decode` reads bytes as UTF-8 text.  On bytes that are no such text it tells where the first
fault lies and whether the bytes are wrong there or merely stop too early.

A lead byte fixes how many bytes follow it and the range of each.  Only the first of them has a
range that depends on the lead byte, which is what rules out overlong forms, surrogates and
numbers past the last code point.
-/

namespace Lox.Utf8

/-- The first fault of a byte sequence.  `index` counts the bytes before it. -/
inductive Fault where
  /-- The `length` bytes at `index` start no character and can start none. -/
  | invalid (index length : Nat)
  /-- The bytes stop inside the character that starts at `index`. -/
  | incomplete (index : Nat)
deriving DecidableEq, Repr

def Fault.message : Fault → String
  | .invalid index length =>
    "invalid utf-8 sequence of " ++ toString length ++ " bytes from index " ++ toString index
  | .incomplete index => "incomplete utf-8 byte sequence from index " ++ toString index

abbrev ByteRange := UInt8 × UInt8

def ByteRange.holds (r : ByteRange) (b : UInt8) : Bool := r.1 ≤ b && b ≤ r.2

def continuation : ByteRange := (0x80, 0xbf)

/-- What a lead byte announces: its own part of the code point, and the ranges of the bytes that
follow. -/
structure Lead where
  payload : Nat
  following : List ByteRange

def lead? (b : UInt8) : Option Lead :=
  if b < 0x80 then some ⟨b.toNat, []⟩
  else if b < 0xc2 then none
  else if b < 0xe0 then some ⟨b.toNat - 0xc0, [continuation]⟩
  else if b < 0xf0 then
    let second : ByteRange :=
      if b = 0xe0 then (0xa0, 0xbf) else if b = 0xed then (0x80, 0x9f) else continuation
    some ⟨b.toNat - 0xe0, [second, continuation]⟩
  else if b < 0xf5 then
    let second : ByteRange :=
      if b = 0xf0 then (0x90, 0xbf) else if b = 0xf4 then (0x80, 0x8f) else continuation
    some ⟨b.toNat - 0xf0, [second, continuation, continuation]⟩
  else none

/-- How far the bytes fit the ranges, and whether it is the end of the bytes that stopped it. -/
def fit : List ByteRange → List UInt8 → Nat × Bool
  | r :: rs, b :: bs =>
    if r.holds b then
      let (n, ended) := fit rs bs
      (n + 1, ended)
    else (0, false)
  | _ :: _, [] => (0, true)
  | [], _ => (0, false)

def codePoint (payload : Nat) (following : List UInt8) : Nat :=
  following.foldl (fun n b => 64 * n + (b.toNat - 0x80)) payload

/-- Reads the bytes from number `index` on, after the characters `before`, the last of them
first. -/
def decodeFrom (index : Nat) (before : List Char) : List UInt8 → Except Fault (List Char)
  | [] => .ok before.reverse
  | b :: bytes =>
    match lead? b with
    | none => .error (.invalid index 1)
    | some lead =>
      let (fitting, ended) := fit lead.following bytes
      if fitting = lead.following.length then
        let c := Char.ofNat (codePoint lead.payload (bytes.take fitting))
        decodeFrom (index + 1 + fitting) (c :: before) (bytes.drop fitting)
      else if ended then .error (.incomplete index)
      else .error (.invalid index (1 + fitting))
termination_by bytes => bytes.length
decreasing_by simp only [List.length_drop, List.length_cons]; omega

/-- The text with the given UTF-8 bytes, or its first fault. -/
def decode (bytes : List UInt8) : Except Fault String :=
  (decodeFrom 0 [] bytes).map String.ofList

end Lox.Utf8
