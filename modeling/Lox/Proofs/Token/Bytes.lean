import Mathlib.Data.List.TakeWhile
import Lox.Token.Cursor
import Lox.Proofs.Token.Form

/-!
# Bytes and characters

What a cursor over the bytes of a text reads, told in characters.

`Stands text place rest` says that a place, counted in bytes, is between characters, and that the
characters `rest` come after it.  At such a place a slice begins or ends (`Stands.slice_eq`).  The
cursor sees each byte as a character (`seen`): an ASCII character as itself, and any other as
several characters none of which is ASCII.  A class of characters that does not tell those apart is
therefore the same for bytes as for characters (`takeWhile_seen`), and a loop that tests one byte
after the other passes over whole characters (`Stands.advanceWhile_eq`).
-/

namespace Lox

/-! ### Bytes of characters -/

def bytesOf (cs : List Char) : List UInt8 := cs.flatMap String.utf8EncodeChar

@[simp] theorem bytesOf_nil : bytesOf [] = [] := rfl

@[simp] theorem bytesOf_cons (c : Char) (cs : List Char) :
    bytesOf (c :: cs) = String.utf8EncodeChar c ++ bytesOf cs := List.flatMap_cons

@[simp] theorem bytesOf_append (cs ds : List Char) :
    bytesOf (cs ++ ds) = bytesOf cs ++ bytesOf ds := List.flatMap_append

theorem bytesOf_toList (text : String) : bytesOf text.toList = text.toByteArray.data.toList := by
  rw [← String.utf8Encode_toList, List.utf8Encode, List.toList_data_toByteArray]
  rfl

theorem length_bytesOf (cs : List Char) :
    (bytesOf cs).length = (String.ofList cs).utf8ByteSize := by
  have same := bytesOf_toList (String.ofList cs)
  rw [String.toList_ofList] at same
  rw [same, Array.length_toList]
  exact String.size_toByteArray

def IsAscii (c : Char) : Prop := c.toNat < 128

instance (c : Char) : Decidable (IsAscii c) := inferInstanceAs (Decidable (_ < _))

theorem isAscii_iff_utf8Size {c : Char} : IsAscii c ↔ c.utf8Size = 1 := by
  rw [Char.utf8Size_eq_one_iff, UInt32.le_iff_toNat_le]
  exact Nat.lt_succ_iff

theorem IsAscii.encode {c : Char} (ascii : IsAscii c) :
    ∃ b, String.utf8EncodeChar c = [b] ∧ Char.ofUInt8 b = c := by
  refine ⟨_, String.utf8EncodeChar_eq_singleton (isAscii_iff_utf8Size.1 ascii), ?_⟩
  apply Char.ext
  apply UInt32.toNat.inj
  change c.val.toUInt8.toUInt32.toNat = c.val.toNat
  rw [UInt8.toNat_toUInt32, UInt32.toNat_toUInt8, Nat.mod_eq_of_lt]
  exact ascii.trans (by decide)

theorem IsAscii.length_bytesOf {c : Char} (ascii : IsAscii c) : (bytesOf [c]).length = 1 := by
  obtain ⟨b, code, -⟩ := ascii.encode
  simp [code]

/-- No byte of another character is that of an ASCII character. -/
theorem not_isAscii_of_mem_encode {c : Char} (h : ¬ IsAscii c) {b : UInt8}
    (hb : b ∈ String.utf8EncodeChar c) : ¬ IsAscii (Char.ofUInt8 b) := by
  have marked (x y : UInt8) (high : 128 ≤ y.toNat) : 128 ≤ (x ||| y).toNat := by
    rw [UInt8.toNat_or]
    exact high.trans Nat.right_le_or
  have high : 128 ≤ b.toNat := by
    have atMost := c.utf8Size_le_four
    have positive := c.utf8Size_pos
    obtain two | three | four : c.utf8Size = 2 ∨ c.utf8Size = 3 ∨ c.utf8Size = 4 := by
      rw [isAscii_iff_utf8Size] at h
      omega
    · rw [String.utf8EncodeChar_eq_cons_cons two] at hb
      simp only [List.mem_cons, List.not_mem_nil, or_false] at hb
      rcases hb with rfl | rfl <;> exact marked _ _ (by decide)
    · rw [String.utf8EncodeChar_eq_cons_cons_cons three] at hb
      simp only [List.mem_cons, List.not_mem_nil, or_false] at hb
      rcases hb with rfl | rfl | rfl <;> exact marked _ _ (by decide)
    · rw [String.utf8EncodeChar_eq_cons_cons_cons_cons four] at hb
      simp only [List.mem_cons, List.not_mem_nil, or_false] at hb
      rcases hb with rfl | rfl | rfl | rfl <;> exact marked _ _ (by decide)
  exact Nat.not_lt_of_le high

/-! ### Places -/

/-- Whole characters come before the place, and the characters `rest` after it. -/
def Stands (text : String) (place : Nat) (rest : List Char) : Prop :=
  ∃ before, text.toList = before ++ rest ∧ place = (bytesOf before).length

namespace Stands

variable {text : String} {place : Nat} {xs rest : List Char} {c : Char}

theorem start (text : String) : Stands text 0 text.toList := ⟨[], rfl, rfl⟩

theorem append (h : Stands text place (xs ++ rest)) :
    Stands text (place + (bytesOf xs).length) rest := by
  obtain ⟨before, text_eq, rfl⟩ := h
  exact ⟨before ++ xs, by simpa using text_eq, by simp⟩

theorem tail (h : Stands text place (c :: rest)) (ascii : IsAscii c) :
    Stands text (place + 1) rest := by
  have all : Stands text place ([c] ++ rest) := h
  rw [← ascii.length_bytesOf]
  exact all.append

theorem drop_bytes (h : Stands text place rest) :
    text.toByteArray.data.toList.drop place = bytesOf rest := by
  obtain ⟨before, text_eq, rfl⟩ := h
  rw [← bytesOf_toList, text_eq, bytesOf_append, List.drop_left]

theorem size_eq (h : Stands text place rest) :
    text.utf8ByteSize = place + (bytesOf rest).length := by
  obtain ⟨before, text_eq, rfl⟩ := h
  rw [← String.ofList_toList (s := text), ← length_bytesOf, text_eq]
  simp

theorem lt_size_iff (h : Stands text place rest) : place < text.utf8ByteSize ↔ rest ≠ [] := by
  rw [h.size_eq]
  cases rest with
  | nil => simp
  | cons c cs =>
      have positive := c.utf8Size_pos
      simp only [bytesOf_cons, List.length_append, String.length_utf8EncodeChar, ne_eq,
        List.cons_ne_nil, not_false_iff, iff_true]
      omega

/-- A slice may begin and end at the place. -/
theorem isValid (h : Stands text place rest) : (⟨place⟩ : String.Pos.Raw).IsValid text := by
  obtain ⟨before, text_eq, rfl⟩ := h
  refine String.Pos.Raw.isValid_iff_exists_append.2
    ⟨String.ofList before, String.ofList rest, ?_, ?_⟩
  · rw [← String.ofList_append, ← text_eq, String.ofList_toList]
  · rw [length_bytesOf]
    rfl

theorem exists_pos (h : Stands text place rest) :
    ∃ (p : text.Pos) (before : String), text.pos? ⟨place⟩ = some p ∧ p.offset = ⟨place⟩ ∧
      p.Splits before (String.ofList rest) := by
  have valid := h.isValid
  obtain ⟨before, text_eq, rfl⟩ := h
  refine ⟨text.pos _ valid, String.ofList before, ?_, rfl, ?_, ?_⟩
  · have accepted : (⟨(bytesOf before).length⟩ : String.Pos.Raw).isValidForSlice text.toSlice :=
      String.Pos.Raw.isValidForSlice_eq_true_iff.2 valid.toSlice
    rw [String.pos?, String.Slice.pos?, dif_pos accepted]
    rfl
  · rw [← String.ofList_append, ← text_eq, String.ofList_toList]
  · rw [String.offset_pos, length_bytesOf]
    rfl

/-- The slice over some characters is their text. -/
theorem slice_eq (h : Stands text place (xs ++ rest)) (k : Cursor) :
    Scanner.slice text place (place + (bytesOf xs).length) k = .ok (String.ofList xs) k := by
  obtain ⟨p, -, p_eq, p_offset, -⟩ := h.exists_pos
  obtain ⟨q, -, q_eq, q_offset, -⟩ := h.append.exists_pos
  have cut : text.extract p q = String.ofList xs := by
    apply String.toByteArray_inj.1
    rw [String.toByteArray_extract, p_offset, q_offset]
    apply ByteArray.ext
    apply Array.toList_inj.1
    rw [ByteArray.data_extract, Array.toList_extract, List.extract_eq_take_drop, h.drop_bytes,
      ← bytesOf_toList, String.toList_ofList]
    simp
  rw [Scanner.slice, p_eq, q_eq]
  dsimp only
  rw [if_pos (Nat.le_add_right _ _), cut]
  rfl

theorem firstFrom_eq (h : Stands text place (c :: rest)) (k : Cursor) :
    Scanner.firstFrom text place k = .ok c k := by
  obtain ⟨p, before, p_eq, -, splits⟩ := h.exists_pos
  have first : p.get? = some c := by
    have joined : p.Splits before (String.singleton c ++ String.ofList rest) := by
      simpa using splits
    have inside := joined.ne_endPos_of_singleton
    obtain ⟨behind, same⟩ := splits.exists_eq_singleton_append inside
    have heads := congrArg (·.toList.head?) same
    rw [String.Pos.get?_eq_some_get inside]
    simpa using heads.symm
  rw [Scanner.firstFrom, p_eq]
  dsimp only
  rw [first]
  rfl

end Stands

/-! ### Characters as they are seen -/

/-- The bytes of characters, each looked at as the character that it is on its own. -/
def seen (cs : List Char) : List Char := (bytesOf cs).map Char.ofUInt8

theorem seen_cons (c : Char) (cs : List Char) :
    seen (c :: cs) = (String.utf8EncodeChar c).map Char.ofUInt8 ++ seen cs := by
  simp [seen]

theorem length_seen (cs : List Char) : (seen cs).length = (bytesOf cs).length := List.length_map _

theorem IsAscii.seen_cons {c : Char} (ascii : IsAscii c) (cs : List Char) :
    seen (c :: cs) = c :: seen cs := by
  obtain ⟨b, code, same⟩ := ascii.encode
  rw [Lox.seen_cons, code]
  simp [same]

/-- Another character is seen as some characters that are not ASCII. -/
theorem seen_cons_of_not_isAscii {c : Char} (h : ¬ IsAscii c) (cs : List Char) :
    ∃ d ds, seen (c :: cs) = d :: (ds ++ seen cs) ∧ ∀ x ∈ d :: ds, ¬ IsAscii x := by
  rw [seen_cons]
  cases code : String.utf8EncodeChar c with
  | nil =>
      have positive := c.utf8Size_pos
      rw [← String.length_utf8EncodeChar, code] at positive
      cases positive
  | cons b bs =>
      refine ⟨Char.ofUInt8 b, bs.map Char.ofUInt8, rfl, fun x hx => ?_⟩
      obtain ⟨b', hb', rfl⟩ := List.mem_map.1 (List.map_cons ▸ hx)
      exact not_isAscii_of_mem_encode h (code ▸ hb')

/-- The class does not tell characters apart that are not ASCII. -/
def Uniform (P : Char → Bool) : Prop := ∀ c d, ¬ IsAscii c → ¬ IsAscii d → P c = P d

theorem takeWhile_seen {P : Char → Bool} (uniform : Uniform P) (cs : List Char) :
    (seen cs).takeWhile P = seen (cs.takeWhile P) := by
  induction cs with
  | nil => rfl
  | cons c cs ih =>
      by_cases ascii : IsAscii c
      · rw [ascii.seen_cons, List.takeWhile_cons, List.takeWhile_cons]
        split
        · rw [ascii.seen_cons, ih]
        · rfl
      -- The class has either all the bytes of the character or not even the first.
      obtain ⟨d, ds, split, others⟩ := seen_cons_of_not_isAscii ascii cs
      have same : ∀ x ∈ d :: ds, P x = P c := fun x hx => uniform x c (others x hx) ascii
      cases holds : P c with
      | true =>
          have all : ∀ x ∈ d :: ds, P x := fun x hx => (same x hx).trans holds
          rw [List.takeWhile_cons_of_pos holds, split, ← List.cons_append,
            List.takeWhile_append_of_pos all, ih, Lox.seen_cons]
          rw [Lox.seen_cons, ← List.cons_append] at split
          rw [List.append_cancel_right split]
      | false =>
          rw [List.takeWhile_cons_of_neg (by simp [holds]), split,
            List.takeWhile_cons_of_neg (by simp [same d List.mem_cons_self, holds])]
          rfl

/-- Line ends are counted in bytes as in characters. -/
theorem count_seen (cs : List Char) : (seen cs).count '\n' = cs.count '\n' := by
  induction cs with
  | nil => rfl
  | cons c cs ih =>
      by_cases ascii : IsAscii c
      · rw [ascii.seen_cons, List.count_cons, List.count_cons, ih]
      · obtain ⟨d, ds, split, others⟩ := seen_cons_of_not_isAscii ascii cs
        have none : (d :: ds).count '\n' = 0 := List.count_eq_zero.2 fun there =>
          others _ there (by decide)
        have other : c ≠ '\n' := fun same => ascii (same ▸ by decide)
        rw [split, ← List.cons_append, List.count_append, none, ih, Nat.zero_add,
          List.count_cons_of_ne other]

/-- The first byte of a character is in a class with that character. -/
theorem any_head?_seen {P : Char → Bool} (uniform : Uniform P) (cs : List Char) :
    (seen cs).head?.any P = cs.head?.any P := by
  cases cs with
  | nil => rfl
  | cons c cs =>
      by_cases ascii : IsAscii c
      · rw [ascii.seen_cons]
        rfl
      · obtain ⟨d, ds, split, others⟩ := seen_cons_of_not_isAscii ascii cs
        rw [split]
        exact uniform d c (others d List.mem_cons_self) ascii

/-! ### Classes of characters -/

/-- The class has only ASCII characters, and not the one that is seen at the end of a text. -/
def AsciiClass (P : Char → Bool) : Prop := ∀ c, P c → IsAscii c ∧ c ≠ '\x00'

theorem AsciiClass.uniform {P : Char → Bool} (h : AsciiClass P) : Uniform P := fun c d hc hd => by
  have none (x : Char) (hx : ¬ IsAscii x) : P x = false :=
    Bool.eq_false_iff.2 fun holds => hx (h x holds).1
  rw [none c hc, none d hd]

theorem uniform_ne {e : Char} (ascii : IsAscii e) : Uniform fun c => decide (c ≠ e) := by
  have other (x : Char) (hx : ¬ IsAscii x) : x ≠ e := fun same => hx (same ▸ ascii)
  intro c d hc hd
  simp [other c hc, other d hd]

theorem asciiClass_eq {e : Char} (ascii : IsAscii e) (zero : e ≠ '\x00') :
    AsciiClass (· == e) := by
  intro c same
  rw [beq_iff_eq.1 same]
  exact ⟨ascii, zero⟩

theorem isAscii_of_between {a b c : Char} (lower : a.val ≤ c.val) (upper : c.val ≤ b.val)
    (positive : 0 < a.toNat) (small : IsAscii b) : IsAscii c ∧ c ≠ '\x00' := by
  have above : 0 < c.toNat := positive.trans_le (UInt32.le_iff_toNat_le.1 lower)
  refine ⟨(UInt32.le_iff_toNat_le.1 upper).trans_lt small, ?_⟩
  rintro rfl
  exact absurd above (by decide)

theorem asciiClass_isDigit : AsciiClass Char.isDigit := by
  intro c digit
  obtain ⟨lower, upper⟩ := Bool.and_eq_true_iff.1 digit
  exact isAscii_of_between (of_decide_eq_true lower) (of_decide_eq_true upper) (by decide)
    (by decide)

theorem asciiClass_isNameChar : AsciiClass isNameChar := by
  intro c name
  rw [isNameChar, Char.isAlphanum, Bool.or_eq_true, Bool.or_eq_true, beq_iff_eq] at name
  rcases name with (alpha | digit) | rfl
  · rcases Bool.or_eq_true_iff.1 alpha with upper | lower
    · obtain ⟨above, below⟩ := of_decide_eq_true upper
      exact isAscii_of_between above below (by decide) (by decide)
    · obtain ⟨above, below⟩ := Bool.and_eq_true_iff.1 lower
      exact isAscii_of_between (of_decide_eq_true above) (of_decide_eq_true below) (by decide)
        (by decide)
  · exact asciiClass_isDigit c digit
  · decide

theorem asciiClass_isNameStart : AsciiClass isNameStart := fun c start =>
  asciiClass_isNameChar c (isNameChar_of_isNameStart start)

theorem asciiClass_isBlank : AsciiClass isBlank := by
  intro c blank
  rcases eq_of_isBlank blank with rfl | rfl | rfl | rfl <;> decide

/-! ### What a cursor sees -/

theorem Cursor.count_line (k : Cursor) (c : Char) :
    (k.count c).line = k.line + [c].count '\n' := by
  by_cases newline : c = '\n' <;> simp [Cursor.count, newline]

theorem Cursor.count_of_ne {k : Cursor} {c : Char} (other : c ≠ '\n') : k.count c = k :=
  if_neg other

namespace Scanner

variable {text : String} {place : Nat} {c : Char} {cs : List Char} {k : Cursor} {P : Char → Bool}

theorem byteAt?_eq (text : String) (place : Nat) :
    byteAt? text place = text.toByteArray.data.toList[place]? := by
  have size : text.toByteArray.data.toList.length = text.utf8ByteSize := by
    rw [Array.length_toList]
    exact String.size_toByteArray
  unfold byteAt?
  split
  · rename_i inside
    rw [List.getElem?_eq_getElem (size ▸ inside), String.getUTF8Byte]
    rfl
  · rw [List.getElem?_eq_none (by omega)]

/-- From a place on, the bytes of the text are seen as `cs`. -/
def Sees (text : String) (place : Nat) (cs : List Char) : Prop :=
  ∀ j, (byteAt? text (place + j)).map Char.ofUInt8 = cs[j]?

namespace Sees

theorem tail (h : Sees text place (c :: cs)) : Sees text (place + 1) cs := fun j => by
  rw [Nat.add_assoc, Nat.add_comm 1 j, h (j + 1)]
  rfl

theorem head (h : Sees text place cs) : (byteAt? text place).map Char.ofUInt8 = cs.head? := by
  simpa [List.head?_eq_getElem?] using h 0

theorem lt_size_iff (h : Sees text place cs) : place < text.utf8ByteSize ↔ cs ≠ [] := by
  rw [← List.isSome_head?, ← h.head, Option.isSome_map, byteAt?]
  split <;> simp_all

theorem peekAt_eq (h : Sees text place cs) : peekAt text place = cs.head?.getD '\x00' := by
  rw [← h.head, peekAt]
  cases byteAt? text place <;> rfl

theorem mem_peekAt (h : Sees text place cs) (ascii : AsciiClass P) :
    P (peekAt text place) = cs.head?.any P := by
  rw [h.peekAt_eq]
  cases cs with
  | nil => exact Bool.eq_false_iff.2 fun holds => (ascii _ holds).2 rfl
  | cons c cs => rfl

theorem before_peekAt (h : Sees text place cs) (e : Char) :
    (place < text.utf8ByteSize && peekAt text place != e) = cs.head?.any (· ≠ e) := by
  cases cs with
  | nil => simp [h.lt_size_iff]
  | cons c cs => by_cases same : c = e <;> simp [h.lt_size_iff, h.peekAt_eq, same]

theorem advance_eq (h : Sees text k.place (c :: cs)) :
    advance text k = .ok c { k with place := k.place + 1 } := by
  have first := h.head
  unfold advance
  cases found : byteAt? text k.place with
  | none =>
      rw [found] at first
      cases first
  | some b =>
      rw [found] at first
      cases first
      rfl

/-- A loop passes over the bytes that satisfy its condition. -/
theorem advanceWhile_eq {more : Nat → Bool}
    (tests : ∀ {place cs}, Sees text place cs → more place = cs.head?.any P)
    (h : Sees text k.place cs) :
    advanceWhile text more k = .ok () ⟨k.start, k.place + (cs.takeWhile P).length,
      k.line + (cs.takeWhile P).count '\n'⟩ := by
  induction cs generalizing k with
  | nil =>
      rw [advanceWhile_of_done (by simp [tests h])]
      rfl
  | cons c cs ih =>
      cases holds : P c with
      | false =>
          rw [advanceWhile_of_done (by simp [tests h, holds]),
            List.takeWhile_cons_of_neg (by simp [holds])]
          rfl
      | true =>
          have rest : Sees text (({ k with place := k.place + 1 } : Cursor).count c).place cs := by
            simpa using h.tail
          rw [advanceWhile_of_more (by simp [tests h, holds]) h.advance_eq, ih rest,
            List.takeWhile_cons_of_pos holds, Cursor.count_line]
          simp [List.count_cons, Nat.add_comm, Nat.add_left_comm]

end Sees

end Scanner

/-! ### Moving over characters -/

def Cursor.past (k : Cursor) (cs : List Char) : Cursor :=
  ⟨k.start, k.place + (bytesOf cs).length, k.line + cs.count '\n'⟩

theorem Cursor.past_append (k : Cursor) (cs ds : List Char) :
    k.past (cs ++ ds) = (k.past cs).past ds := by
  simp [past, Nat.add_assoc]

theorem Cursor.past_singleton (k : Cursor) {c : Char} (ascii : IsAscii c) :
    k.past [c] = ({ k with place := k.place + 1 } : Cursor).count c := by
  rw [past, ascii.length_bytesOf]
  by_cases newline : c = '\n' <;> simp [count, newline]

namespace Stands

variable {text : String} {place : Nat} {rest : List Char} {c e : Char} {k : Cursor}
  {P : Char → Bool}

theorem sees (h : Stands text place rest) : Scanner.Sees text place (seen rest) := fun j => by
  rw [Scanner.byteAt?_eq, ← List.getElem?_drop, h.drop_bytes, seen, List.getElem?_map]

theorem mem_peekAt (h : Stands text place rest) (ascii : AsciiClass P) :
    P (Scanner.peekAt text place) = rest.head?.any P :=
  (h.sees.mem_peekAt ascii).trans (any_head?_seen ascii.uniform rest)

theorem peekAt_eq_iff (h : Stands text place rest) (ascii : IsAscii e) (zero : e ≠ '\x00') :
    Scanner.peekAt text place = e ↔ rest.head? = some e := by
  rw [← beq_iff_eq, h.mem_peekAt (asciiClass_eq ascii zero)]
  cases rest <;> simp

theorem advance_eq (h : Stands text k.place (c :: rest)) (ascii : IsAscii c) :
    Scanner.advance text k = .ok c { k with place := k.place + 1 } := by
  have sees := h.sees
  rw [ascii.seen_cons] at sees
  exact sees.advance_eq

/-- A loop passes over the characters that satisfy its condition. -/
theorem advanceWhile_eq {more : Nat → Bool} (h : Stands text k.place rest) (uniform : Uniform P)
    (tests : ∀ {place cs}, Scanner.Sees text place cs → more place = cs.head?.any P) :
    Scanner.advanceWhile text more k = .ok () (k.past (rest.takeWhile P)) := by
  rw [h.sees.advanceWhile_eq tests, takeWhile_seen uniform, length_seen, count_seen]
  rfl

theorem advanceWhile_class (h : Stands text k.place rest) (ascii : AsciiClass P) :
    Scanner.advanceWhile text (fun i => P (Scanner.peekAt text i)) k =
      .ok () (k.past (rest.takeWhile P)) :=
  h.advanceWhile_eq ascii.uniform fun sees => sees.mem_peekAt ascii

theorem advanceWhile_before (h : Stands text k.place rest) (ascii : IsAscii e) :
    Scanner.advanceWhile text (fun i => i < text.utf8ByteSize && Scanner.peekAt text i != e) k =
      .ok () (k.past (rest.takeWhile (· ≠ e))) :=
  h.advanceWhile_eq (uniform_ne ascii) fun sees => sees.before_peekAt e

end Stands

end Lox
