import Lox.Bind
import Lox.Token.Scan

/-!
# Scanning by bytes

The scan as a cursor makes it that moves over the UTF-8 bytes of a source text.  It looks at one
byte at a time and cuts the spelling of a token out of the text between two places, which are
counted in bytes.  A text can refuse both: there is no byte after the last one, and a slice must
begin and end between characters.  A refused read is a `Misread` and ends the scan.

A byte is looked at as the character that it is on its own.  This is right for letters, digits and
marks, which take one byte each, and every byte of a longer character is above all of those.
-/

namespace Lox

/-- A read that a text refuses. -/
inductive Misread where
  /-- Of the byte at a place where the text has ended. -/
  | byte (place : Nat)
  /-- Of a slice that does not begin and end between characters of the text, in this order. -/
  | slice (start stop : Nat)
deriving DecidableEq, Repr

/-- Where a scan by bytes stands. -/
structure Cursor where
  /-- The place of the first byte of the current piece. -/
  start : Nat
  /-- The place of the next byte. -/
  place : Nat
  line : Nat
deriving DecidableEq, Repr

def Cursor.count (k : Cursor) (c : Char) : Cursor :=
  if c = '\n' then { k with line := k.line + 1 } else k

@[simp] theorem Cursor.count_start (k : Cursor) (c : Char) : (k.count c).start = k.start := by
  unfold count
  split <;> rfl

@[simp] theorem Cursor.count_place (k : Cursor) (c : Char) : (k.count c).place = k.place := by
  unfold count
  split <;> rfl

abbrev Scanner := EStateM Misread Cursor

namespace Scanner

/-! ### Bytes -/

def byteAt? (text : String) (place : Nat) : Option UInt8 :=
  if inside : place < text.utf8ByteSize then some (text.getUTF8Byte ⟨place⟩ inside) else none

/-- The byte at a place as a character, or the character zero where the text has ended. -/
def peekAt (text : String) (place : Nat) : Char := Char.ofUInt8 ((byteAt? text place).getD 0)

def advance (text : String) : Scanner Char := fun k =>
  match byteAt? text k.place with
  | some b => .ok (Char.ofUInt8 b) { k with place := k.place + 1 }
  | none => .error (.byte k.place) k

def accept (text : String) (expected : Char) : Scanner Bool := do
  let k ← get
  if k.place < text.utf8ByteSize ∧ peekAt text k.place = expected then
    let _ ← advance text
    return true
  else
    return false

theorem lt_of_byteAt? {text : String} {place : Nat} {b : UInt8}
    (h : byteAt? text place = some b) : place < text.utf8ByteSize := by
  unfold byteAt? at h
  split at h
  · assumption
  · cases h

theorem advance_eq_ok {text : String} {k k' : Cursor} {c : Char}
    (h : advance text k = .ok c k') :
    k.place < text.utf8ByteSize ∧ k' = { k with place := k.place + 1 } := by
  unfold advance at h
  split at h
  · cases h
    exact ⟨lt_of_byteAt? ‹_›, rfl⟩
  · cases h

/-- Reads bytes as long as a condition holds of the place of the next one, and counts the line ends
among them. -/
def advanceWhile (text : String) (more : Nat → Bool) : Scanner Unit := fun k =>
  if more k.place then
    match _read : advance text k with
    | .ok c k => advanceWhile text more (k.count c)
    | .error e k => .error e k
  else .ok () k
termination_by k => text.utf8ByteSize - k.place
decreasing_by
  obtain ⟨inside, rfl⟩ := advance_eq_ok _read
  simp only [Cursor.count_place]
  omega

theorem advanceWhile_of_more {text : String} {more : Nat → Bool} {k k' : Cursor} {c : Char}
    (holds : more k.place) (read : advance text k = .ok c k') :
    advanceWhile text more k = advanceWhile text more (k'.count c) := by
  rw [advanceWhile, if_pos holds]
  split <;> simp_all

theorem advanceWhile_of_done {text : String} {more : Nat → Bool} {k : Cursor}
    (done : ¬ more k.place) : advanceWhile text more k = .ok () k := by
  rw [advanceWhile, if_neg done]

/-! ### Slices -/

def slice (text : String) (start stop : Nat) : Scanner String :=
  match text.pos? ⟨start⟩, text.pos? ⟨stop⟩ with
  | some first, some last =>
    if start ≤ stop then pure (text.extract first last) else throw (.slice start stop)
  | _, _ => throw (.slice start stop)

/-- The text of the current piece as far as it is read. -/
def lexeme (text : String) : Scanner String := do
  let k ← get
  slice text k.start k.place

/-- The first character of the text from a place on, or the replacement character if there is
none. -/
def firstFrom (text : String) (start : Nat) : Scanner Char :=
  match text.pos? ⟨start⟩ with
  | some first => pure (first.get?.getD '\uFFFD')
  | none => throw (.slice start text.utf8ByteSize)

/-! ### Pieces -/

/-- What a piece yields: a token of some kind, an error, or nothing. -/
abbrev Yield := Except LexicalError (Option Kind)

/-- Passes over a comment, up to the line end or the end of the text. -/
def skipComment (text : String) : Scanner Yield := do
  let k ← get
  if text.utf8ByteSize < k.place then throw (.slice k.place text.utf8ByteSize)
  else
    advanceWhile text fun i => i < text.utf8ByteSize && peekAt text i != '\n'
    return .ok none

/-- Reads a string after its opening quote. -/
def readString (text : String) : Scanner Yield := do
  let opening ← get
  advanceWhile text fun i => i < text.utf8ByteSize && peekAt text i != '"'
  let closing ← get
  if text.utf8ByteSize ≤ closing.place then
    return .error (.unterminatedString opening.line)
  else
    let _ ← advance text
    let k ← get
    let contents ← slice text (k.start + 1) (k.place - 1)
    return .ok (some (.string contents))

def numeral (digits : List Char) : Float :=
  Number.ofDigits (digits.takeWhile Char.isDigit) (fractionDigits (digits.dropWhile Char.isDigit))

def readDigits (text : String) : Scanner Unit :=
  advanceWhile text fun i => (peekAt text i).isDigit

/-- Reads a point and the digits after it, if a digit follows the point. -/
def readFraction (text : String) : Scanner Unit := do
  let k ← get
  if peekAt text k.place = '.' ∧ (peekAt text (k.place + 1)).isDigit then
    let _ ← advance text
    readDigits text
  else
    return ()

def readNumber (text : String) : Scanner Kind := do
  readDigits text
  readFraction text
  let spelling ← lexeme text
  return .number (numeral spelling.toList)

/-- Reads a name after its first character.  A reserved word is a name with its spelling. -/
def readName (text : String) : Scanner Kind := do
  advanceWhile text fun i => isNameChar (peekAt text i)
  let spelling ← lexeme text
  match Keyword.ofSpelling? spelling with
  | some word => return .keyword word
  | none => return .identifier

/-- Reads the whole character that the current piece starts with. -/
def readUnexpected (text : String) : Scanner Yield := do
  let k ← get
  let c ← firstFrom text k.start
  modify fun k => { k with place := k.start + c.utf8Size }
  return .error (.unexpectedCharacter c k.line)

/-- The marks that an equals sign joins. -/
def joinable : List Char := ['!', '=', '<', '>']

def acceptJoined (text : String) (c : Char) : Scanner Bool :=
  if c ∈ joinable then accept text '=' else pure false

/-- Reads a mark after its first character, or what is no mark. -/
def readMark (text : String) (c : Char) : Scanner Yield := do
  let joined ← acceptJoined text c
  match symbol? c (if joined then some '=' else none) with
  | some mark => return .ok (some (.symbol mark))
  | none => readUnexpected text

/-- Reads the rest of a piece after its first byte. -/
def readRest (text : String) (c : Char) : Scanner Yield := do
  if isBlank c then
    modify fun k => k.count c
    return .ok none
  else if c = '/' then
    if ← accept text '/' then skipComment text else return .ok (some (.symbol .slash))
  else if c = '"' then readString text
  else if c.isDigit then
    let kind ← readNumber text
    return .ok (some kind)
  else if isNameStart c then
    let kind ← readName text
    return .ok (some kind)
  else readMark text c

def readPiece (text : String) : Scanner Yield := do
  let c ← advance text
  readRest text c

def item? (text : String) : Yield → Scanner (Option Item)
  | .error e => return some (.error e)
  | .ok none => return none
  | .ok (some kind) => do
    let spelling ← lexeme text
    let k ← get
    return some (.ok ⟨kind, spelling, k.line⟩)

/-- One turn of the scan: a piece is begun where the last one has ended, and read. -/
def turn (text : String) : Scanner (Option Item) := do
  modify fun k => { k with start := k.place }
  let yield ← readPiece text
  item? text yield

/-! ### Progress -/

/-- The step keeps the start of the piece and stays behind it. -/
def Onward (x : Scanner α) : Prop :=
  ∀ ⦃k a k'⦄, k.start < k.place → x k = .ok a k' → k'.start = k.start ∧ k'.start < k'.place

namespace Onward

variable {text : String}

theorem pure (a : α) : Onward (Pure.pure a : Scanner α) := by
  intro k a k' ahead h
  cases h
  exact ⟨rfl, ahead⟩

theorem throw (e : Misread) : Onward (MonadExcept.throw e : Scanner α) := by
  intro k a k' _ h
  cases h

theorem get : Onward (MonadState.get : Scanner Cursor) := by
  intro k a k' ahead h
  cases h
  exact ⟨rfl, ahead⟩

theorem bind {x : Scanner α} {f : α → Scanner β} (hx : Onward x) (hf : ∀ a, Onward (f a)) :
    Onward (x >>= f) := by
  intro k b k'' ahead h
  obtain ⟨a, k', first, second⟩ := bind_eq_ok_iff.1 h
  obtain ⟨same, ahead'⟩ := hx ahead first
  obtain ⟨same', ahead''⟩ := hf a (same ▸ ahead') second
  exact ⟨same'.trans same, ahead''⟩

theorem advance : Onward (advance text) := by
  intro k c k' ahead h
  obtain ⟨-, rfl⟩ := advance_eq_ok h
  exact ⟨rfl, Nat.lt_succ_of_lt ahead⟩

theorem accept (expected : Char) : Onward (accept text expected) := by
  refine get.bind fun k => ?_
  split
  · exact advance.bind fun _ => .pure _
  · exact .pure _

theorem advanceWhile (more : Nat → Bool) : Onward (advanceWhile text more) := by
  intro k a k'' ahead h
  induction k using advanceWhile.induct text more with
  | case1 k holds c k' read ih =>
    rw [advanceWhile_of_more holds read] at h
    obtain ⟨-, rfl⟩ := advance_eq_ok read
    simpa using ih (by simpa using Nat.lt_succ_of_lt ahead) h
  | case2 k holds e k' read =>
    rw [Scanner.advanceWhile, if_pos holds] at h
    split at h <;> simp_all
  | case3 k done =>
    rw [advanceWhile_of_done done] at h
    cases h
    exact ⟨rfl, ahead⟩

theorem slice (start stop : Nat) : Onward (slice text start stop) := by
  unfold Scanner.slice
  split
  · split
    · exact .pure _
    · exact .throw _
  · exact .throw _

theorem lexeme : Onward (lexeme text) := get.bind fun _ => .slice _ _

theorem firstFrom (start : Nat) : Onward (firstFrom text start) := by
  unfold Scanner.firstFrom
  split
  · exact .pure _
  · exact .throw _

theorem skipComment : Onward (skipComment text) := by
  refine get.bind fun k => ?_
  split
  · exact .throw _
  · exact (advanceWhile _).bind fun _ => .pure _

theorem readString : Onward (readString text) := by
  refine get.bind fun opening => (advanceWhile _).bind fun _ => get.bind fun closing => ?_
  split
  · exact .pure _
  · exact advance.bind fun _ => get.bind fun k => (slice _ _).bind fun _ => .pure _

theorem readDigits : Onward (readDigits text) := advanceWhile _

theorem readFraction : Onward (readFraction text) := by
  refine get.bind fun k => ?_
  split
  · exact advance.bind fun _ => readDigits
  · exact .pure _

theorem readNumber : Onward (readNumber text) :=
  readDigits.bind fun _ => readFraction.bind fun _ => lexeme.bind fun _ => .pure _

theorem readName : Onward (readName text) := by
  refine (advanceWhile _).bind fun _ => lexeme.bind fun _ => ?_
  split <;> exact .pure _

theorem readUnexpected : Onward (readUnexpected text) := by
  refine get.bind fun k => (firstFrom _).bind fun c => bind ?_ fun _ => .pure _
  intro k a k' _ h
  cases h
  exact ⟨rfl, Nat.lt_add_of_pos_right c.utf8Size_pos⟩

theorem acceptJoined (c : Char) : Onward (acceptJoined text c) := by
  unfold Scanner.acceptJoined
  split
  · exact .accept _
  · exact .pure _

theorem readMark (c : Char) : Onward (readMark text c) := by
  refine (acceptJoined c).bind fun joined => ?_
  split
  · exact .pure _
  · exact readUnexpected

theorem readRest (c : Char) : Onward (readRest text c) := by
  unfold Scanner.readRest
  split
  · refine bind ?_ fun _ => .pure _
    intro k a k' ahead h
    cases h
    simpa using ahead
  split
  · refine (accept _).bind fun found => ?_
    split
    · exact skipComment
    · exact .pure _
  split
  · exact readString
  split
  · exact readNumber.bind fun _ => .pure _
  split
  · exact readName.bind fun _ => .pure _
  · exact readMark c

theorem item? (yield : Yield) : Onward (item? text yield) := by
  unfold Scanner.item?
  split
  · exact .pure _
  · exact .pure _
  · exact lexeme.bind fun _ => get.bind fun _ => .pure _

end Onward

/-- Reading a piece moves on from where it starts. -/
theorem place_lt_of_readPiece {text : String} {k k' : Cursor} {yield : Yield}
    (begun : k.start = k.place) (h : readPiece text k = .ok yield k') :
    k'.start = k.start ∧ k'.start < k'.place := by
  obtain ⟨c, k₁, first, rest⟩ := bind_eq_ok_iff.1 h
  obtain ⟨-, moved⟩ := advance_eq_ok first
  have start : k₁.start = k.start := by rw [moved]
  have ahead : k₁.start < k₁.place := by
    rw [moved]
    exact Nat.lt_succ_of_le (Nat.le_of_eq begun)
  obtain ⟨same, ahead⟩ := Onward.readRest c ahead rest
  exact ⟨same.trans start, ahead⟩

/-- A turn reads on. -/
theorem place_lt_of_turn {text : String} {k k' : Cursor} {item : Option Item}
    (h : turn text k = .ok item k') : k.place < k'.place := by
  obtain ⟨_, k₁, begun, h⟩ := bind_eq_ok_iff.1 h
  cases begun
  obtain ⟨yield, k₂, read, made⟩ := bind_eq_ok_iff.1 h
  obtain ⟨same, ahead⟩ := place_lt_of_readPiece rfl read
  obtain ⟨same', ahead'⟩ := Onward.item? yield ahead made
  exact Nat.lt_of_le_of_lt (Nat.le_of_eq (same'.trans same).symm) ahead'

/-! ### Items -/

/-- The next item, if the end-of-file token has not been handed out. -/
def next (text : String) : Scanner (Option Item) := fun k =>
  if k.place < text.utf8ByteSize then
    match _turned : turn text k with
    | .ok none k => next text k
    | .ok (some item) k => .ok (some item) k
    | .error e k => .error e k
  else if k.place = text.utf8ByteSize then
    .ok (some (.ok ⟨.eof, "", k.line⟩)) { k with place := k.place + 1 }
  else .ok none k
termination_by k => text.utf8ByteSize - k.place
decreasing_by
  have := place_lt_of_turn _turned
  omega

theorem next_of_skip {text : String} {k k' : Cursor} (inside : k.place < text.utf8ByteSize)
    (turned : turn text k = .ok none k') : next text k = next text k' := by
  rw [next, if_pos inside]
  split <;> simp_all

theorem next_of_item {text : String} {k k' : Cursor} {item : Item}
    (inside : k.place < text.utf8ByteSize) (turned : turn text k = .ok (some item) k') :
    next text k = .ok (some item) k' := by
  rw [next, if_pos inside]
  split <;> simp_all

/-- An item is read before the cursor is past the end, and moves it on. -/
theorem place_lt_of_next {text : String} {k k' : Cursor} {item : Item}
    (h : next text k = .ok (some item) k') :
    k.place ≤ text.utf8ByteSize ∧ k.place < k'.place := by
  induction k using next.induct text with
  | case1 k inside k₁ turned ih =>
    rw [next_of_skip inside turned] at h
    exact ⟨Nat.le_of_lt inside, Nat.lt_trans (place_lt_of_turn turned) (ih h).2⟩
  | case2 k inside item' k₁ turned =>
    rw [next_of_item inside turned] at h
    cases h
    exact ⟨Nat.le_of_lt inside, place_lt_of_turn turned⟩
  | case3 k inside e k₁ turned =>
    rw [next, if_pos inside] at h
    split at h <;> simp_all
  | case4 k outside atEnd =>
    rw [next, if_neg outside, if_pos atEnd] at h
    cases h
    exact ⟨Nat.le_of_eq atEnd, Nat.lt_succ_self _⟩
  | case5 k outside past =>
    rw [next, if_neg outside, if_neg past] at h
    cases h

/-- The items from a cursor on, after those already found. -/
def itemsOnto (text : String) (found : Array Item) (k : Cursor) : Except Misread (List Item) :=
  match _read : next text k with
  | .ok (some item) k => itemsOnto text (found.push item) k
  | .ok none _ => .ok found.toList
  | .error e _ => .error e
termination_by text.utf8ByteSize + 1 - k.place
decreasing_by
  have := place_lt_of_next _read
  omega

end Scanner

def scanBytes (source : String) : Except Misread (List Item) :=
  Scanner.itemsOnto source #[] ⟨0, 0, 1⟩

end Lox
