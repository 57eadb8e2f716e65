import Lox.Console
import Lox.Proofs.Token.Bytes

/-!
# A scan by bytes

A cursor over the bytes of a text reads nothing that the text refuses, and finds the items that a
scan by characters finds (`scanBytes_never_splits`).

`HasRead text k xs rest` says where a cursor is inside a piece: the characters `xs` of the piece are
read, `rest` is ahead.  With it, each step of a scan is told by the characters that it reads.  The
first byte decides how a piece is read.  That of an ASCII character is the character; that of any
other starts no piece, and then the whole character is read in its place
(`readPiece_of_not_isAscii`).  So a turn of the scan reads the piece that `munch` cuts off
(`Stands.turn_eq`), and the cursor is between characters again.
-/

namespace Lox

/-! ### Inside a piece -/

/-- The cursor has read the characters `xs` of its piece, and `rest` is ahead. -/
structure HasRead (text : String) (k : Cursor) (xs rest : List Char) : Prop where
  stands : Stands text k.start (xs ++ rest)
  place_eq : k.place = k.start + (bytesOf xs).length

namespace HasRead

variable {text : String} {k : Cursor} {c e : Char} {xs ys rest : List Char}

theorem ahead (h : HasRead text k xs rest) : Stands text k.place rest :=
  h.place_eq ▸ h.stands.append

theorem past (h : HasRead text k xs (ys ++ rest)) : HasRead text (k.past ys) (xs ++ ys) rest where
  stands := by simpa using! h.stands
  place_eq := by
    have place := h.place_eq
    simp only [Cursor.past, bytesOf_append, List.length_append]
    omega

theorem advance_eq (h : HasRead text k xs (c :: rest)) (ascii : IsAscii c) (other : c ≠ '\n') :
    Scanner.advance text k = .ok c (k.past [c]) := by
  rw [k.past_singleton ascii, Cursor.count_of_ne other]
  exact h.ahead.advance_eq ascii

theorem lexeme_eq (h : HasRead text k xs rest) :
    Scanner.lexeme text k = .ok (String.ofList xs) k := by
  refine bind_eq_ok_iff.2 ⟨k, k, rfl, ?_⟩
  rw [h.place_eq]
  exact h.stands.slice_eq k

/-- An expected character is read if it comes next. -/
theorem accept_eq (h : HasRead text k xs rest) (ascii : IsAscii e) (zero : e ≠ '\x00')
    (other : e ≠ '\n') :
    Scanner.accept text e k =
      .ok (rest.head? == some e) (k.past (rest.take (rest.head? == some e).toNat)) := by
  have looks := h.ahead.peekAt_eq_iff ascii zero
  refine bind_eq_ok_iff.2 ⟨k, k, rfl, ?_⟩
  by_cases found : rest.head? = some e
  · obtain ⟨rest, rfl⟩ := List.head?_eq_some_iff.1 found
    rw [if_pos ⟨h.ahead.lt_size_iff.2 (List.cons_ne_nil e rest), looks.2 rfl⟩, List.head?_cons,
      beq_self_eq_true]
    exact bind_eq_ok_iff.2 ⟨_, _, h.advance_eq ascii other, rfl⟩
  · rw [if_neg fun both => found (looks.1 both.2), beq_eq_false_iff_ne.2 found]
    rfl

/-! ### Comments and strings -/

theorem skipComment_eq (h : HasRead text k xs rest) :
    Scanner.skipComment text k = .ok (.ok none) (k.past (rest.takeWhile (· ≠ '\n'))) := by
  have inside : ¬ text.utf8ByteSize < k.place := by
    rw [h.ahead.size_eq]
    omega
  refine bind_eq_ok_iff.2 ⟨k, k, rfl, ?_⟩
  rw [if_neg inside]
  exact bind_eq_ok_iff.2 ⟨_, _, h.ahead.advanceWhile_before (by decide), rfl⟩

/-- A string without a closing quote is read to the end of the text. -/
theorem readString_open (h : HasRead text k xs rest) (unclosed : '"' ∉ rest) :
    Scanner.readString text k = .ok (.error (.unterminatedString k.line)) (k.past rest) := by
  have all : rest.takeWhile (· ≠ '"') = rest := by
    refine List.takeWhile_eq_self_iff.2 fun c hc => ?_
    rw [decide_eq_true_iff]
    rintro rfl
    exact unclosed hc
  have loop := h.ahead.advanceWhile_before (e := '"') (by decide)
  rw [all] at loop
  have ended : Stands text (k.past rest).place [] := by
    have parted : HasRead text k xs (rest ++ []) := by rwa [List.append_nil]
    exact parted.past.ahead
  refine bind_eq_ok_iff.2 ⟨_, _, rfl, bind_eq_ok_iff.2 ⟨_, _, loop,
    bind_eq_ok_iff.2 ⟨_, _, rfl, ?_⟩⟩⟩
  rw [if_pos (Nat.le_of_not_lt fun inside => ended.lt_size_iff.1 inside rfl)]
  rfl

/-- Between the quotes of a string are its contents. -/
theorem slice_contents {contents : List Char}
    (h : HasRead text k ['"'] (contents ++ '"' :: rest)) :
    let closed := k.past (contents ++ ['"'])
    Scanner.slice text (closed.start + 1) (closed.place - 1) closed =
      .ok (String.ofList contents) closed := by
  intro closed
  have ascii : IsAscii '"' := by decide
  have inner : Stands text (k.start + 1) (contents ++ '"' :: rest) := h.stands.tail ascii
  have stop : closed.place - 1 = k.start + 1 + (bytesOf contents).length := by
    have place := h.place_eq
    have one := ascii.length_bytesOf
    rw [one] at place
    simp only [closed, Cursor.past, bytesOf_append, List.length_append, place, one]
    omega
  rw [stop]
  exact inner.slice_eq closed

/-- A string is read past its closing quote. -/
theorem readString_closed {contents : List Char}
    (h : HasRead text k ['"'] (contents ++ '"' :: rest)) (inside : '"' ∉ contents) :
    Scanner.readString text k =
      .ok (.ok (some (.string (String.ofList contents)))) (k.past (contents ++ ['"'])) := by
  have loop := h.ahead.advanceWhile_before (e := '"') (by decide)
  rw [takeWhile_contents inside] at loop
  have closing : HasRead text (k.past contents) ('"' :: contents) ('"' :: rest) := h.past
  have more := closing.ahead.lt_size_iff.2 (List.cons_ne_nil '"' rest)
  refine bind_eq_ok_iff.2 ⟨_, _, rfl, bind_eq_ok_iff.2 ⟨_, _, loop,
    bind_eq_ok_iff.2 ⟨_, _, rfl, ?_⟩⟩⟩
  rw [if_neg (Nat.not_le_of_lt more)]
  refine bind_eq_ok_iff.2 ⟨_, _, closing.advance_eq (by decide) (by decide), ?_⟩
  rw [← Cursor.past_append]
  exact bind_eq_ok_iff.2 ⟨_, _, rfl, bind_eq_ok_iff.2 ⟨_, _, h.slice_contents, rfl⟩⟩

theorem readString_eq (h : HasRead text k ['"'] rest) :
    let contents := rest.takeWhile (· ≠ '"')
    Scanner.readString text k = if contents.length = rest.length then
      .ok (.error (.unterminatedString k.line)) (k.past rest) else
      .ok (.ok (some (.string (String.ofList contents))))
        (k.past (rest.take (contents.length + 1))) := by
  intro contents
  split <;> rename_i ended
  · refine h.readString_open fun quote => ?_
    obtain ⟨before, behind, rfl, inside⟩ := List.eq_append_cons_of_mem quote
    rw [show contents = before from takeWhile_contents inside _] at ended
    simp at ended
  · obtain ⟨before, behind, inside, rfl⟩ := exists_closing ended
    have taken : (before ++ '"' :: behind).take (before.length + 1) = before ++ ['"'] :=
      List.take_length_add_append 1
    rw [show contents = before from takeWhile_contents inside _, taken]
    exact h.readString_closed inside

end HasRead

/-! ### Numbers and names -/

/-- The value of a numeral is that of its digits before and after the point. -/
theorem numeral_eq {digits fraction : List Char} (all : ∀ d ∈ digits, d.isDigit)
    (all' : ∀ d ∈ fraction, d.isDigit) :
    Scanner.numeral (digits ++ fractionText fraction) = Number.ofDigits digits fraction := by
  have whole := takeWhile_append_fraction fraction [] all (Or.inr rfl)
  rw [List.append_nil] at whole
  have behind : (digits ++ fractionText fraction).dropWhile Char.isDigit =
      fractionText fraction := by
    have both := List.takeWhile_append_dropWhile (p := Char.isDigit)
      (l := digits ++ fractionText fraction)
    rw [whole] at both
    exact List.append_cancel_left both
  have found : fractionDigits (fractionText fraction) = fraction := by
    cases fraction with
    | nil => rfl
    | cons d ds => exact List.takeWhile_eq_self_iff.2 all'
  rw [Scanner.numeral, whole, behind, found]

/-- There is a fraction where a digit comes after a point. -/
theorem Stands.point_iff {text : String} {place : Nat} {rest : List Char}
    (h : Stands text place rest) :
    Scanner.peekAt text place = '.' ∧ (Scanner.peekAt text (place + 1)).isDigit ↔
      fractionDigits rest ≠ [] := by
  rw [h.peekAt_eq_iff (by decide) (by decide)]
  cases rest with
  | nil => simp [fractionDigits]
  | cons d ds =>
      by_cases point : d = '.'
      · subst point
        rw [(h.tail (by decide)).mem_peekAt asciiClass_isDigit]
        cases ds with
        | nil => simp [fractionDigits]
        | cons e es => by_cases digit : e.isDigit <;> simp [fractionDigits, digit]
      · simp [fractionDigits, point]

namespace HasRead

variable {text : String} {k : Cursor} {c e : Char} {xs ys rest : List Char}

theorem readDigits_eq (h : HasRead text k xs rest) :
    Scanner.readDigits text k = .ok () (k.past (rest.takeWhile Char.isDigit)) :=
  h.ahead.advanceWhile_class asciiClass_isDigit

theorem readFraction_eq (h : HasRead text k xs rest) :
    Scanner.readFraction text k = .ok () (k.past (fractionText (fractionDigits rest))) := by
  have fraction := h.ahead.point_iff
  refine bind_eq_ok_iff.2 ⟨_, _, rfl, ?_⟩
  by_cases none : fractionDigits rest = []
  · rw [if_neg fun both => fraction.1 both none, none]
    rfl
  · rw [if_pos (fraction.2 none), fractionText, if_neg none]
    obtain ⟨digits, rfl⟩ : ∃ digits, rest = '.' :: digits := by
      have point := (h.ahead.peekAt_eq_iff (by decide) (by decide)).1 (fraction.2 none).1
      exact List.head?_eq_some_iff.1 point
    have pointed : HasRead text (k.past ['.']) (xs ++ ['.']) digits := h.past
    refine bind_eq_ok_iff.2 ⟨_, _, h.advance_eq (by decide) (by decide), ?_⟩
    rw [pointed.readDigits_eq, ← Cursor.past_append]
    rfl

theorem readNumber_eq (h : HasRead text k [c] rest) (digit : c.isDigit) :
    let whole := rest.takeWhile Char.isDigit
    let fraction := fractionDigits (rest.drop whole.length)
    Scanner.readNumber text k = .ok (.number (Number.ofDigits (c :: whole) fraction))
      (k.past (whole ++ fractionText fraction)) := by
  intro whole fraction
  have parted : whole ++ rest.drop whole.length = rest :=
    List.prefix_iff_eq_append.1 (List.takeWhile_prefix _)
  have counted : HasRead text (k.past whole) (c :: whole) (rest.drop whole.length) := by
    rw [← parted] at h
    exact h.past
  obtain ⟨behind, split⟩ := fractionText_prefix (rest.drop whole.length)
  have ended : HasRead text (k.past (whole ++ fractionText fraction))
      (c :: (whole ++ fractionText fraction)) behind := by
    rw [← parted, ← split, ← List.append_assoc] at h
    exact h.past
  have value := numeral_eq
    (List.forall_mem_cons.2 ⟨digit, fun d (hd : d ∈ whole) => List.mem_takeWhile_imp hd⟩)
    fun d (hd : d ∈ fraction) => isDigit_of_mem_fractionDigits hd
  refine bind_eq_ok_iff.2 ⟨_, _, h.readDigits_eq,
    bind_eq_ok_iff.2 ⟨_, _, counted.readFraction_eq, ?_⟩⟩
  rw [← Cursor.past_append]
  refine bind_eq_ok_iff.2 ⟨_, _, ended.lexeme_eq, ?_⟩
  rw [String.toList_ofList, ← List.cons_append, value]
  rfl

theorem readName_eq (h : HasRead text k [c] rest) :
    Scanner.readName text k = .ok (nameKind (c :: rest.takeWhile isNameChar))
      (k.past (rest.takeWhile isNameChar)) := by
  have loop := h.ahead.advanceWhile_class asciiClass_isNameChar
  have named : HasRead text (k.past (rest.takeWhile isNameChar))
      (c :: rest.takeWhile isNameChar) (rest.dropWhile isNameChar) := by
    rw [← List.takeWhile_append_dropWhile (p := isNameChar) (l := rest)] at h
    exact h.past
  refine bind_eq_ok_iff.2 ⟨_, _, loop, bind_eq_ok_iff.2 ⟨_, _, named.lexeme_eq, ?_⟩⟩
  rw [nameKind]
  cases Keyword.ofSpelling? (String.ofList (c :: rest.takeWhile isNameChar)) <;> rfl

end HasRead

/-! ### Marks -/

/-- Does an equals sign join the character, and come next? -/
def joins (c : Char) (next : Option Char) : Bool :=
  decide (c ∈ Scanner.joinable) && next == some '='

theorem eq_of_joins {c : Char} {next : Option Char} (joined : joins c next) :
    c = '!' ∨ c = '=' ∨ c = '<' ∨ c = '>' := by
  simpa [Scanner.joinable] using of_decide_eq_true (Bool.and_eq_true_iff.1 joined).1

/-- A symbol depends on the next character only if that joins it. -/
theorem symbol?_joins (c : Char) (next : Option Char) :
    symbol? c (if joins c next then some '=' else none) = symbol? c next := by
  unfold symbol?
  split <;> by_cases equals : next = some '=' <;> simp [joins, Scanner.joinable, equals]

/-- A symbol is two characters long if the second one joins it. -/
theorem length_of_symbol? {c : Char} {next : Option Char} {mark : Symbol}
    (found : symbol? c next = some mark) : mark.spelling.length - 1 = (joins c next).toNat := by
  rw [← symbol?_joins] at found
  cases joined : joins c next with
  | true =>
      rw [joined] at found
      rcases eq_of_joins joined with rfl | rfl | rfl | rfl <;> cases found <;> rfl
  | false =>
      rw [joined] at found
      unfold symbol? at found
      split at found <;> cases found <;> rfl

/-- What is joined is a symbol. -/
theorem joins_of_symbol?_eq_none {c : Char} {next : Option Char} (none : symbol? c next = none) :
    joins c next = false := by
  refine Bool.eq_false_iff.2 fun joined => ?_
  rcases eq_of_joins joined with rfl | rfl | rfl | rfl <;> cases none

/-- The character that a piece starts with is read as a whole, however much of it was read. -/
theorem readUnexpected_eq {text : String} {k : Cursor} {c : Char} {rest : List Char}
    (h : Stands text k.start (c :: rest)) :
    Scanner.readUnexpected text k = .ok (.error (.unexpectedCharacter c k.line))
      { k with place := k.start + c.utf8Size } :=
  bind_eq_ok_iff.2 ⟨_, _, rfl, bind_eq_ok_iff.2 ⟨_, _, h.firstFrom_eq k, rfl⟩⟩

namespace HasRead

variable {text : String} {k : Cursor} {c : Char} {xs rest : List Char}

theorem acceptJoined_eq (h : HasRead text k [c] rest) :
    Scanner.acceptJoined text c k =
      .ok (joins c rest.head?) (k.past (rest.take (joins c rest.head?).toNat)) := by
  unfold Scanner.acceptJoined
  by_cases joinable : c ∈ Scanner.joinable
  · rw [if_pos joinable, h.accept_eq (by decide) (by decide) (by decide), joins,
      decide_eq_true joinable, Bool.true_and]
  · rw [if_neg joinable, joins, decide_eq_false joinable, Bool.false_and]
    rfl

/-- A mark is read together with what joins it. -/
theorem readMark_eq (h : HasRead text k [c] rest) (ascii : IsAscii c) :
    Scanner.readMark text c k =
      match symbol? c rest.head? with
      | some mark =>
        .ok (.ok (some (.symbol mark))) (k.past (rest.take (mark.spelling.length - 1)))
      | none => .ok (.error (.unexpectedCharacter c k.line)) k := by
  cases found : symbol? c rest.head? with
  | some mark =>
      refine bind_eq_ok_iff.2 ⟨_, _, h.acceptJoined_eq, ?_⟩
      rw [symbol?_joins, found, length_of_symbol? found]
      rfl
  | none =>
      have here : { k with place := k.start + c.utf8Size } = k := by
        rw [isAscii_iff_utf8Size.1 ascii, ← ascii.length_bytesOf, ← h.place_eq]
      refine bind_eq_ok_iff.2 ⟨_, _, h.acceptJoined_eq, ?_⟩
      rw [symbol?_joins, found, joins_of_symbol?_eq_none found]
      exact (readUnexpected_eq h.stands).trans (congrArg (EStateM.Result.ok _) here)

end HasRead

/-! ### Pieces that start with an ASCII character -/

/-- What a piece yields that starts on a line. -/
def Reading.yield (line : Nat) : Reading → Scanner.Yield
  | .blank => .ok none
  | .comment => .ok none
  | .token kind => .ok (some kind)
  | .unexpected c => .error (.unexpectedCharacter c line)
  | .unterminated => .error (.unterminatedString line)

namespace HasRead

variable {text : String} {k : Cursor} {c : Char} {xs rest : List Char}

theorem readSlash_eq (h : HasRead text k ['/'] rest) :
    Scanner.readRest text '/' k = if rest.head? = some '/' then
      .ok (.ok none) (k.past (rest.takeWhile (· ≠ '\n'))) else
      .ok (.ok (some (.symbol .slash))) k := by
  have first := h.accept_eq (e := '/') (by decide) (by decide) (by decide)
  by_cases comment : rest.head? = some '/'
  · obtain ⟨rest, rfl⟩ := List.head?_eq_some_iff.1 comment
    have second : HasRead text k ['/'] (['/'] ++ rest) := h
    have line : ('/' :: rest).takeWhile (· ≠ '\n') = ['/'] ++ rest.takeWhile (· ≠ '\n') := rfl
    rw [if_pos comment, line, Cursor.past_append]
    refine bind_eq_ok_iff.2 ⟨_, _, first, ?_⟩
    rw [comment, beq_self_eq_true, if_pos rfl]
    exact second.past.skipComment_eq
  · rw [if_neg comment]
    refine bind_eq_ok_iff.2 ⟨_, _, first, ?_⟩
    rw [beq_eq_false_iff_ne.2 comment]
    rfl

/-- The rest of a piece is read as the piece is cut from the text. -/
theorem readRest_eq (h : HasRead text k [c] rest) (ascii : IsAscii c) {reading : Reading}
    {extent : Nat} (found : munch c rest = (reading, extent)) :
    Scanner.readRest text c k =
      .ok (reading.yield k.line) ((k.count c).past (rest.take extent)) := by
  unfold munch at found
  by_cases blank : isBlank c
  · rw [if_pos blank] at found
    cases found
    unfold Scanner.readRest
    rw [if_pos blank]
    rfl
  have other : c ≠ '\n' := by
    rintro rfl
    exact blank rfl
  rw [if_neg blank] at found
  rw [Cursor.count_of_ne other]
  by_cases slash : c = '/'
  · subst slash
    rw [h.readSlash_eq]
    by_cases comment : rest.head? = some '/'
    · rw [if_pos ⟨rfl, comment⟩] at found
      cases found
      rw [if_pos comment, ← List.prefix_iff_eq_take.1 (List.takeWhile_prefix _)]
      rfl
    · rw [if_neg fun both => comment both.2] at found
      cases found
      rw [if_neg comment]
      rfl
  unfold Scanner.readRest
  rw [if_neg fun both => slash both.1] at found
  rw [if_neg blank, if_neg slash]
  by_cases quote : c = '"'
  · subst quote
    rw [if_pos rfl] at found ⊢
    rw [h.readString_eq]
    dsimp only at found
    split at found <;> rename_i ended
    · cases found
      rw [if_pos ended, List.take_length]
      rfl
    · cases found
      rw [if_neg ended]
      rfl
  rw [if_neg quote] at found ⊢
  by_cases digit : c.isDigit
  · rw [if_pos digit] at found ⊢
    cases found
    have taken := List.prefix_iff_eq_take.1
      (List.cons_prefix_cons.1 (longest_number rest digit).starts).2
    rw [List.length_append, length_fractionText] at taken
    refine bind_eq_ok_iff.2 ⟨_, _, h.readNumber_eq digit, ?_⟩
    rw [taken]
    rfl
  rw [if_neg digit] at found ⊢
  by_cases start : isNameStart c
  · rw [if_pos start] at found ⊢
    cases found
    rw [← List.prefix_iff_eq_take.1 (List.takeWhile_prefix _)]
    exact bind_eq_ok_iff.2 ⟨_, _, h.readName_eq, rfl⟩
  rw [if_neg start] at found ⊢
  rw [h.readMark_eq ascii]
  cases mark : symbol? c rest.head? with
  | some mark =>
      rw [mark] at found
      cases found
      rfl
  | none =>
      rw [mark] at found
      cases found
      rfl

theorem item?_eq (h : HasRead text k xs rest) (reading : Reading) (line : Nat) :
    Scanner.item? text (reading.yield line) k =
      .ok ((⟨reading, xs⟩ : Piece).item? line k.line) k := by
  cases reading with
  | token kind =>
      exact bind_eq_ok_iff.2 ⟨_, _, h.lexeme_eq, bind_eq_ok_iff.2 ⟨_, _, rfl, rfl⟩⟩
  | _ => rfl

end HasRead

/-! ### Other characters -/

section Other

variable {c : Char} (h : ¬ IsAscii c)

include h

theorem not_mem_of_not_isAscii {P : Char → Bool} (ascii : AsciiClass P) : ¬ P c :=
  fun holds => h (ascii c holds).1

theorem ne_of_not_isAscii {e : Char} (ascii : IsAscii e) : c ≠ e := fun same => h (same ▸ ascii)

theorem symbol?_of_not_isAscii (next : Option Char) : symbol? c next = none := by
  unfold symbol?
  split <;> first | rfl | exact absurd (by decide) h

/-- A character that is not ASCII starts no token and no gap. -/
theorem munch_of_not_isAscii (cs : List Char) : munch c cs = (.unexpected c, 0) := by
  rw [munch, if_neg (not_mem_of_not_isAscii h asciiClass_isBlank),
    if_neg fun both => ne_of_not_isAscii h (by decide) both.1,
    if_neg (ne_of_not_isAscii h (by decide)),
    if_neg (not_mem_of_not_isAscii h asciiClass_isDigit),
    if_neg (not_mem_of_not_isAscii h asciiClass_isNameStart), symbol?_of_not_isAscii h]

/-- A byte of such a character is taken for an unexpected one. -/
theorem readRest_of_not_isAscii (text : String) :
    Scanner.readRest text c = Scanner.readUnexpected text := by
  have alone : c ∉ Scanner.joinable := fun there => by
    simp only [Scanner.joinable, List.mem_cons, List.not_mem_nil, or_false] at there
    rcases there with same | same | same | same <;> exact ne_of_not_isAscii h (by decide) same
  rw [Scanner.readRest, if_neg (not_mem_of_not_isAscii h asciiClass_isBlank),
    if_neg (ne_of_not_isAscii h (by decide)), if_neg (ne_of_not_isAscii h (by decide)),
    if_neg (not_mem_of_not_isAscii h asciiClass_isDigit),
    if_neg (not_mem_of_not_isAscii h asciiClass_isNameStart), Scanner.readMark,
    Scanner.acceptJoined, if_neg alone, pure_bind, symbol?_of_not_isAscii h]

end Other

/-! ### Turns -/

def firstPiece (c : Char) (cs : List Char) : Piece :=
  ⟨(munch c cs).1, c :: cs.take (munch c cs).2⟩

theorem pieces_eq_firstPiece (c : Char) (cs : List Char) :
    pieces (c :: cs) = firstPiece c cs :: pieces (cs.drop (munch c cs).2) := pieces_cons c cs

theorem firstPiece_append (c : Char) (cs : List Char) :
    (firstPiece c cs).text ++ cs.drop (munch c cs).2 = c :: cs := by
  simp [firstPiece]

section Turn

variable {text : String} {k : Cursor} {c : Char} {cs : List Char}

theorem readPiece_of_isAscii (h : HasRead text k [] (c :: cs)) (ascii : IsAscii c) :
    Scanner.readPiece text k =
      .ok ((firstPiece c cs).reading.yield k.line) (k.past (firstPiece c cs).text) := by
  have first : HasRead text { k with place := k.place + 1 } [c] cs :=
    ⟨h.stands, by rw [ascii.length_bytesOf, h.place_eq]; rfl⟩
  refine bind_eq_ok_iff.2 ⟨_, _, h.ahead.advance_eq ascii, ?_⟩
  rw [first.readRest_eq ascii rfl, ← Cursor.past_singleton k ascii, ← Cursor.past_append]
  rfl

/-- Of another character the first byte is read, and then the whole character in its place. -/
theorem readPiece_of_not_isAscii (h : HasRead text k [] (c :: cs)) (other : ¬ IsAscii c) :
    Scanner.readPiece text k =
      .ok ((firstPiece c cs).reading.yield k.line) (k.past (firstPiece c cs).text) := by
  obtain ⟨d, ds, split, others⟩ := seen_cons_of_not_isAscii other cs
  have sees : Scanner.Sees text k.place (d :: (ds ++ seen cs)) := split ▸ h.ahead.sees
  have whole : { k with place := k.start + c.utf8Size } = k.past [c] := by
    have start : k.start = k.place := h.place_eq.symm
    have line : c ≠ '\n' := ne_of_not_isAscii other (by decide)
    simp [Cursor.past, line, start]
  refine bind_eq_ok_iff.2 ⟨_, _, sees.advance_eq, ?_⟩
  rw [readRest_of_not_isAscii (others d List.mem_cons_self), firstPiece,
    munch_of_not_isAscii other, List.take_zero, ← whole]
  exact readUnexpected_eq h.stands

namespace Stands

/-- A turn reads the first piece of what is ahead. -/
theorem turn_eq (h : Stands text k.place (c :: cs)) :
    let p := firstPiece c cs
    Scanner.turn text k = .ok (p.item? k.line (k.line + p.newlines))
      (({ k with start := k.place } : Cursor).past p.text) := by
  intro p
  let begun : Cursor := { k with start := k.place }
  have whole : HasRead text begun [] (c :: cs) := ⟨h, rfl⟩
  have parted : HasRead text begun [] (p.text ++ cs.drop (munch c cs).2) := by
    rwa [firstPiece_append]
  have read : Scanner.readPiece text begun =
      .ok (p.reading.yield k.line) (begun.past p.text) := by
    by_cases ascii : IsAscii c
    · exact readPiece_of_isAscii whole ascii
    · exact readPiece_of_not_isAscii whole ascii
  exact bind_eq_ok_iff.2 ⟨_, begun, rfl, bind_eq_ok_iff.2 ⟨_, _, read,
    parted.past.item?_eq p.reading k.line⟩⟩

/-- After a turn the cursor is behind the piece. -/
theorem behind_firstPiece (h : Stands text k.place (c :: cs)) :
    Stands text (({ k with start := k.place } : Cursor).past (firstPiece c cs).text).place
      (cs.drop (munch c cs).2) := by
  rw [← firstPiece_append c cs] at h
  exact h.append

end Stands

end Turn

/-! ### The whole scan -/

namespace Scanner

variable {text : String} {k k' : Cursor}

theorem itemsOnto_of_skip (found : Array Item) (same : next text k = next text k') :
    itemsOnto text found k = itemsOnto text found k' := by
  rw [itemsOnto, itemsOnto, same]

theorem itemsOnto_of_item {item : Item} (found : Array Item)
    (read : next text k = .ok (some item) k') :
    itemsOnto text found k = itemsOnto text (found.push item) k' := by
  rw [itemsOnto]
  split <;> simp_all

theorem itemsOnto_of_none (found : Array Item) (read : next text k = .ok none k') :
    itemsOnto text found k = .ok found.toList := by
  rw [itemsOnto]
  split <;> simp_all

end Scanner

/-- At the end of the text only the end-of-file token is found. -/
theorem Stands.itemsOnto_nil {text : String} {k : Cursor} (h : Stands text k.place [])
    (found : Array Item) :
    Scanner.itemsOnto text found k = .ok (found.push (.ok (endOfFile k.line))).toList := by
  have atEnd : k.place = text.utf8ByteSize := by simpa using h.size_eq.symm
  have last : Scanner.next text k =
      .ok (some (.ok (endOfFile k.line))) { k with place := k.place + 1 } := by
    rw [Scanner.next, if_neg (by omega), if_pos atEnd]
    rfl
  have past : Scanner.next text { k with place := k.place + 1 } =
      .ok none { k with place := k.place + 1 } := by
    rw [Scanner.next, if_neg (by simp only; omega), if_neg (by simp only; omega)]
  rw [Scanner.itemsOnto_of_item found last, Scanner.itemsOnto_of_none _ past]

/-- The items from a place on are those of the pieces that come after it. -/
theorem Stands.itemsOnto_eq {text : String} {k : Cursor} {rest : List Char}
    (h : Stands text k.place rest) (found : Array Item) :
    Scanner.itemsOnto text found k = .ok (found.toList ++ (itemsFrom k.line (pieces rest) ++
      [.ok (endOfFile (lineAfter k.line (pieces rest)))])) := by
  match rest with
  | [] =>
      rw [h.itemsOnto_nil]
      simp [itemsFrom, lineAfter]
  | c :: cs =>
      have inside := h.lt_size_iff.2 (List.cons_ne_nil c cs)
      have turned := h.turn_eq
      have ih := fun found => h.behind_firstPiece.itemsOnto_eq found
      rw [pieces_eq_firstPiece, itemsFrom, lineAfter]
      dsimp only at turned
      cases made : (firstPiece c cs).item? k.line (k.line + (firstPiece c cs).newlines) with
      | none =>
          rw [made] at turned
          rw [Scanner.itemsOnto_of_skip found (Scanner.next_of_skip inside turned), ih]
          rfl
      | some item =>
          rw [made] at turned
          rw [Scanner.itemsOnto_of_item found (Scanner.next_of_item inside turned), ih,
            Array.toList_push, List.append_assoc]
          rfl
termination_by rest.length
decreasing_by simp only [List.length_drop, List.length_cons]; omega

/-- The scan by bytes finds the items of the scan by characters. -/
theorem scanBytes_eq (source : String) : scanBytes source = .ok (scan source) := by
  rw [scanBytes, (Stands.start source).itemsOnto_eq #[], scan_eq]
  rfl

/-- Listing the tokens of a source text never breaks down. -/
theorem tokenizeSource_eq (asJson : Bool) (source : String) :
    tokenizeSource asJson source = .ofItems asJson (scan source) := by
  rw [tokenizeSource, scanBytes_eq]

/-- The cursors that the turns of a scan start from, and those that they end with. -/
inductive Reached (text : String) : Cursor → Prop
  | start : Reached text ⟨0, 0, 1⟩
  | turn {k k' : Cursor} {item : Option Item} (reached : Reached text k)
      (inside : k.place < text.utf8ByteSize) (turned : Scanner.turn text k = .ok item k') :
      Reached text k'

theorem Reached.exists_stands {text : String} {k : Cursor} (reached : Reached text k) :
    ∃ rest, Stands text k.place rest := by
  induction reached with
  | start => exact ⟨_, .start text⟩
  | turn reached inside turned ih =>
      obtain ⟨rest, stands⟩ := ih
      cases rest with
      | nil => exact absurd rfl (stands.lt_size_iff.1 inside)
      | cons c cs =>
          rw [stands.turn_eq] at turned
          cases turned
          exact ⟨_, stands.behind_firstPiece⟩

/-- A scan by bytes reads nothing that the text refuses: neither a byte at its end nor a slice that
does not begin and end between characters.  Every turn starts between characters, comes to an end
without such a read, and leaves its piece between characters.  The items of the whole scan are those
of the scan by characters. -/
theorem scanBytes_never_splits (source : String) :
    (∀ k, Reached source k → (⟨k.place⟩ : String.Pos.Raw).IsValid source ∧
      (k.place < source.utf8ByteSize → ∃ item k', Scanner.turn source k = .ok item k' ∧
        k'.start = k.place ∧ (⟨k'.place⟩ : String.Pos.Raw).IsValid source)) ∧
    scanBytes source = .ok (scan source) := by
  refine ⟨fun k reached => ?_, scanBytes_eq source⟩
  obtain ⟨rest, stands⟩ := reached.exists_stands
  refine ⟨stands.isValid, fun inside => ?_⟩
  cases rest with
  | nil => exact absurd rfl (stands.lt_size_iff.1 inside)
  | cons c cs => exact ⟨_, _, stands.turn_eq, rfl, stands.behind_firstPiece.isValid⟩

end Lox
