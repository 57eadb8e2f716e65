import Lox.Proofs.Token.Scan

/-!
# Scanning joined sources

Two source texts with a line end between them are cut into the pieces of the first, the line end,
and the pieces of the second, unless a string of the first text is never closed: no other piece
reaches over a line end that follows it.  So the tokens of the second text are found on later lines,
and otherwise nothing changes (`tokensOf_scan_joined`).
-/

namespace Lox

theorem takeWhile_append_newline {p : Char → Bool} (stops : p '\n' = false) (xs ys : List Char) :
    (xs ++ '\n' :: ys).takeWhile p = xs.takeWhile p := by
  induction xs with
  | nil => simp [stops]
  | cons x xs ih => simp [List.takeWhile_cons, ih]

theorem length_takeWhile_le (p : Char → Bool) (xs : List Char) :
    (xs.takeWhile p).length ≤ xs.length := (List.takeWhile_prefix p).length_le

theorem fractionDigits_append_newline (xs ys : List Char) :
    fractionDigits (xs ++ '\n' :: ys) = fractionDigits xs := by
  cases xs with
  | nil => rfl
  | cons x xs =>
      by_cases point : x = '.'
      · subst point
        exact takeWhile_append_newline rfl xs ys
      · simp [fractionDigits, point]

theorem fractionLength_le (xs : List Char) : fractionLength (fractionDigits xs) ≤ xs.length := by
  rw [fractionLength]
  split
  · exact Nat.zero_le _
  · rename_i some
    cases xs with
    | nil => exact absurd rfl some
    | cons x xs =>
        by_cases point : x = '.'
        · subst point
          exact Nat.succ_le_succ (length_takeWhile_le Char.isDigit xs)
        · simp [fractionDigits, point] at some

/-- A symbol does not join a line end after it. -/
theorem symbol?_newline (c : Char) : symbol? c (some '\n') = symbol? c none := by
  simp [symbol?]

theorem symbol?_append_newline (c : Char) (xs ys : List Char) :
    symbol? c (xs ++ '\n' :: ys).head? = symbol? c xs.head? := by
  cases xs with
  | nil => exact symbol?_newline c
  | cons x xs => rfl

theorem spelling_le_of_symbol? {c : Char} {xs : List Char} {mark : Symbol}
    (h : symbol? c xs.head? = some mark) : mark.spelling.length - 1 ≤ xs.length := by
  cases xs with
  | nil =>
      unfold symbol? at h
      split at h <;> cases h <;> decide
  | cons x xs =>
      have short : mark.spelling.length ≤ 2 := by
        cases mark <;> decide
      rw [List.length_cons]
      omega

/-- Only a string that is not closed reaches over a line end after the text. -/
theorem munch_append_newline (c : Char) (cs ys : List Char)
    (closed : (munch c cs).1 ≠ .unterminated) :
    munch c (cs ++ '\n' :: ys) = munch c cs ∧ (munch c cs).2 ≤ cs.length := by
  unfold munch at closed ⊢
  -- The cases are those of `munch`, in its order.
  by_cases blank : isBlank c
  · rw [if_pos blank, if_pos blank]
    exact ⟨rfl, Nat.zero_le _⟩
  rw [if_neg blank] at closed
  rw [if_neg blank, if_neg blank]
  have second : (cs ++ '\n' :: ys).head? = some '/' ↔ cs.head? = some '/' := by
    cases cs <;> simp
  by_cases comment : c = '/' ∧ cs.head? = some '/'
  · rw [if_pos comment, if_pos ⟨comment.1, second.2 comment.2⟩, takeWhile_append_newline rfl]
    exact ⟨rfl, length_takeWhile_le _ cs⟩
  rw [if_neg comment] at closed
  rw [if_neg comment, if_neg fun h => comment ⟨h.1, second.1 h.2⟩]
  by_cases quote : c = '"'
  · rw [if_pos quote] at closed
    rw [if_pos quote, if_pos quote]
    have more : (cs.takeWhile (· ≠ '"')).length ≠ cs.length := by
      intro all
      exact closed (by rw [if_pos all])
    have found : (cs ++ '\n' :: ys).takeWhile (· ≠ '"') = cs.takeWhile (· ≠ '"') := by
      rw [List.takeWhile_append, if_neg more]
    have fits : (cs.takeWhile (· ≠ '"')).length < cs.length :=
      Nat.lt_of_le_of_ne (length_takeWhile_le _ cs) more
    dsimp only
    rw [found, if_neg more, if_neg (by rw [List.length_append]; omega)]
    exact ⟨rfl, fits⟩
  rw [if_neg quote, if_neg quote]
  by_cases digit : c.isDigit
  · rw [if_pos digit, if_pos digit]
    dsimp only
    rw [takeWhile_append_newline rfl, List.drop_append_of_le_length (length_takeWhile_le _ cs),
      fractionDigits_append_newline]
    refine ⟨rfl, ?_⟩
    have fraction := fractionLength_le (cs.drop (cs.takeWhile Char.isDigit).length)
    rw [List.length_drop] at fraction
    have whole := length_takeWhile_le Char.isDigit cs
    omega
  rw [if_neg digit, if_neg digit]
  by_cases start : isNameStart c
  · rw [if_pos start, if_pos start]
    dsimp only
    rw [takeWhile_append_newline rfl]
    exact ⟨rfl, length_takeWhile_le _ cs⟩
  rw [if_neg start, if_neg start, symbol?_append_newline]
  refine ⟨rfl, ?_⟩
  cases found : symbol? c cs.head? with
  | none => exact Nat.zero_le _
  | some mark => exact spelling_le_of_symbol? found

def Closed (text : List Char) : Prop := ∀ p ∈ pieces text, p.reading ≠ .unterminated

/-- The piece between two texts. -/
def lineEnd : Piece := ⟨.blank, ['\n']⟩

theorem pieces_append_newline {text : List Char} (ys : List Char) (closed : Closed text) :
    pieces (text ++ '\n' :: ys) = pieces text ++ lineEnd :: pieces ys := by
  match text with
  | [] => rw [List.nil_append, pieces_cons, pieces_nil, List.nil_append]; rfl
  | c :: cs =>
      rw [Closed, pieces_cons, List.forall_mem_cons] at closed
      obtain ⟨same, fits⟩ := munch_append_newline c cs ys closed.1
      have rest := pieces_append_newline ys closed.2
      rw [List.cons_append, pieces_cons, pieces_cons, same, List.take_append_of_le_length fits,
        List.drop_append_of_le_length fits, rest, List.cons_append]
termination_by text.length
decreasing_by simp only [List.length_drop, List.length_cons]; omega

/-- The pieces of a text put together are the text. -/
theorem flatMap_text_pieces (text : List Char) : (pieces text).flatMap Piece.text = text := by
  match text with
  | [] => rw [pieces_nil, List.flatMap_nil]
  | c :: cs =>
      rw [pieces_cons, List.flatMap_cons, flatMap_text_pieces, List.cons_append,
        List.take_append_drop]
termination_by text.length
decreasing_by simp only [List.length_drop, List.length_cons]; omega

theorem lineAfter_eq (line : Nat) (ps : List Piece) :
    lineAfter line ps = line + (ps.flatMap Piece.text).count '\n' := by
  induction ps generalizing line with
  | nil => rfl
  | cons p ps ih =>
      rw [lineAfter, ih, List.flatMap_cons, List.count_append, Piece.newlines, Nat.add_assoc]

theorem itemsFrom_append (line : Nat) (ps ps' : List Piece) :
    itemsFrom line (ps ++ ps') = itemsFrom line ps ++ itemsFrom (lineAfter line ps) ps' := by
  induction ps generalizing line with
  | nil => rfl
  | cons p ps ih => rw [List.cons_append, itemsFrom, itemsFrom, lineAfter, ih, List.append_assoc]

theorem lineAfter_append (line : Nat) (ps ps' : List Piece) :
    lineAfter line (ps ++ ps') = lineAfter (lineAfter line ps) ps' := by
  induction ps generalizing line with
  | nil => rfl
  | cons p ps ih => exact ih _

def Token.lower (k : Nat) (t : Token) : Token := { t with line := t.line + k }

def LexicalError.lower (k : Nat) : LexicalError → LexicalError
  | .unexpectedCharacter c line => .unexpectedCharacter c (line + k)
  | .unterminatedString line => .unterminatedString (line + k)

def lowerItem (k : Nat) : Item → Item
  | .ok t => .ok (t.lower k)
  | .error e => .error (e.lower k)

theorem Piece.item?_lower (p : Piece) (first last k : Nat) :
    p.item? (first + k) (last + k) = (p.item? first last).map (lowerItem k) := by
  rw [Piece.item?, Piece.item?]
  cases p.reading <;> rfl

theorem itemsFrom_lower (line k : Nat) (ps : List Piece) :
    itemsFrom (line + k) ps = (itemsFrom line ps).map (lowerItem k) := by
  induction ps generalizing line with
  | nil => rfl
  | cons p ps ih =>
      rw [itemsFrom, itemsFrom, List.map_append, Nat.add_right_comm, ih, Piece.item?_lower]
      cases p.item? line (line + p.newlines) <;> rfl

theorem lineAfter_lower (line k : Nat) (ps : List Piece) :
    lineAfter (line + k) ps = lineAfter line ps + k := by
  rw [lineAfter_eq, lineAfter_eq, Nat.add_right_comm]

theorem tokensOf_map_lowerItem (k : Nat) (items : List Item) :
    tokensOf (items.map (lowerItem k)) = (tokensOf items).map (Token.lower k) := by
  induction items with
  | nil => rfl
  | cons item items ih =>
      cases item with
      | ok t => exact congrArg (t.lower k :: ·) ih
      | error e => exact ih

theorem lexicalErrorsOf_map_lowerItem (k : Nat) (items : List Item) :
    lexicalErrorsOf (items.map (lowerItem k)) =
      (lexicalErrorsOf items).map (LexicalError.lower k) := by
  induction items with
  | nil => rfl
  | cons item items ih =>
      cases item with
      | ok t => exact ih
      | error e => exact congrArg (e.lower k :: ·) ih

/-- A string that is not closed is an error. -/
theorem error_mem_itemsFrom {p : Piece} (opened : p.reading = .unterminated) {ps : List Piece}
    (hp : p ∈ ps) (line : Nat) :
    ∃ first, .error (.unterminatedString first) ∈ itemsFrom line ps := by
  induction ps generalizing line with
  | nil => cases hp
  | cons p' ps ih =>
      rcases List.mem_cons.1 hp with rfl | hp
      · refine ⟨line, List.mem_append_left _ ?_⟩
        rw [Piece.item?, opened]
        exact List.mem_singleton_self _
      · obtain ⟨first, hf⟩ := ih hp (line + p'.newlines)
        exact ⟨first, List.mem_append_right _ hf⟩

theorem closed_of_scan {source : String}
    (closed : ∀ line, .error (.unterminatedString line) ∉ scan source) :
    Closed source.toList := by
  intro p hp opened
  obtain ⟨first, hf⟩ := error_mem_itemsFrom opened hp 1
  refine closed first ?_
  rw [scan_eq]
  exact List.mem_append_left _ hf

theorem closed_of_lexicalErrorsOf {source : String} (clean : lexicalErrorsOf (scan source) = []) :
    Closed source.toList := by
  refine closed_of_scan fun line opened => ?_
  have found : LexicalError.unterminatedString line ∈ lexicalErrorsOf (scan source) :=
    List.mem_filterMap.2 ⟨_, opened, rfl⟩
  rw [clean] at found
  cases found

/-- How many lines further down a text stands after this one and a line end. -/
def linesBefore (source : String) : Nat := 1 + source.toList.count '\n'

/-- The tokens of a text, without the one that closes it. -/
def properTokens (source : String) : List Token := tokensOf (itemsFrom 1 (pieces source.toList))

theorem tokensOf_scan (source : String) :
    tokensOf (scan source) = properTokens source ++ [endOfFile (linesBefore source)] := by
  rw [scan_eq, tokensOf_append, lineAfter_eq, flatMap_text_pieces]
  rfl

/-- Tokens are found on the lines that their pieces stand on. -/
theorem line_of_mem_itemsFrom (line : Nat) (ps : List Piece) {t : Token}
    (ht : .ok t ∈ itemsFrom line ps) : line ≤ t.line ∧ t.line ≤ lineAfter line ps := by
  induction ps generalizing line with
  | nil => cases ht
  | cons p ps ih =>
      have later := lineAfter_eq (line + p.newlines) ps
      rw [itemsFrom, List.mem_append] at ht
      rw [lineAfter]
      rcases ht with ht | ht
      · rw [Option.mem_toList, Piece.item?] at ht
        cases hr : p.reading with
        | token kind =>
            rw [hr] at ht
            cases ht
            constructor
            · exact Nat.le_add_right _ _
            · exact later ▸ Nat.le_add_right _ _
        | _ =>
            rw [hr] at ht
            cases ht
      · have inside := ih (line + p.newlines) ht
        exact ⟨Nat.le_trans (Nat.le_add_right _ _) inside.1, inside.2⟩

/-- The tokens of a text are on its lines. -/
theorem line_of_mem_scan {source : String} {t : Token} (ht : t ∈ tokensOf (scan source)) :
    1 ≤ t.line ∧ t.line ≤ linesBefore source := by
  have last := lineAfter_eq 1 (pieces source.toList)
  rw [flatMap_text_pieces] at last
  rw [tokensOf_scan, List.mem_append] at ht
  rcases ht with ht | ht
  · have inside := line_of_mem_itemsFrom 1 _ (mem_of_mem_tokensOf ht)
    rwa [last] at inside
  · cases List.mem_singleton.1 ht
    exact ⟨Nat.le_add_right _ _, Nat.le_refl _⟩

/-- The results of a scan of two texts with a line end between them. -/
theorem scan_joined {first : String} (second : String) (closed : Closed first.toList) :
    scan (first ++ "\n" ++ second) =
      itemsFrom 1 (pieces first.toList) ++ (scan second).map (lowerItem (linesBefore first)) := by
  have text : (first ++ "\n" ++ second).toList = first.toList ++ '\n' :: second.toList := by
    simp
  have start : lineAfter 1 (pieces first.toList) + lineEnd.newlines = 1 + linesBefore first := by
    rw [lineAfter_eq, flatMap_text_pieces, linesBefore, Nat.add_comm]
    rfl
  rw [scan_eq, scan_eq, text, pieces_append_newline _ closed, itemsFrom_append, lineAfter_append,
    itemsFrom, lineAfter, start, itemsFrom_lower, lineAfter_lower, List.map_append,
    List.append_assoc]
  rfl

/-- Where no string is open at the end of a text, a line end after it splits the scan: the results
are those of the text without the end of file, and those of what comes after it, further down by all
the lines before it. -/
theorem scan_split_at_newline {first : String} (second : String)
    (closed : ∀ line, .error (.unterminatedString line) ∉ scan first) :
    ∃ items, scan first = items ++ [.ok (endOfFile (linesBefore first))] ∧
      scan (first ++ "\n" ++ second) =
        items ++ (scan second).map (lowerItem (linesBefore first)) := by
  refine ⟨itemsFrom 1 (pieces first.toList), ?_, scan_joined second (closed_of_scan closed)⟩
  rw [scan_eq, lineAfter_eq, flatMap_text_pieces]
  rfl

/-- A text that ends with a number and a point, before one that starts with a digit. -/
theorem scan_split_at_newline_point :
    (∀ line, .error (.unterminatedString line) ∉ scan "é \"x\ny\" 1.") ∧
      linesBefore "é \"x\ny\" 1." = 2 ∧
      ∃ items, scan "é \"x\ny\" 1." = items ++ [.ok (endOfFile 2)] ∧
        scan ("é \"x\ny\" 1." ++ "\n" ++ "5\n\"") = items ++ (scan "5\n\"").map (lowerItem 2) := by
  have errors : lexicalErrorsOf (scan "é \"x\ny\" 1.") = [.unexpectedCharacter 'é' 1] := by
    decide +kernel
  have closed : ∀ line, .error (.unterminatedString line) ∉ scan "é \"x\ny\" 1." := by
    intro line opened
    have found : LexicalError.unterminatedString line ∈
        lexicalErrorsOf (scan "é \"x\ny\" 1.") :=
      List.mem_filterMap.2 ⟨_, opened, rfl⟩
    rw [errors] at found
    cases List.mem_singleton.1 found
  have lines : linesBefore "é \"x\ny\" 1." = 2 := by decide +kernel
  refine ⟨closed, lines, ?_⟩
  rw [← lines]
  exact scan_split_at_newline _ closed

/-- The tokens of two texts with a line end between them. -/
theorem tokensOf_scan_joined {first : String} (second : String) (closed : Closed first.toList) :
    tokensOf (scan (first ++ "\n" ++ second)) =
      properTokens first ++ (tokensOf (scan second)).map (Token.lower (linesBefore first)) := by
  rw [scan_joined second closed, tokensOf_append, tokensOf_map_lowerItem]
  rfl

/-- Two texts without lexical errors have none when they are joined. -/
theorem lexicalErrorsOf_scan_joined {first second : String}
    (clean : lexicalErrorsOf (scan first) = []) (clean' : lexicalErrorsOf (scan second) = []) :
    lexicalErrorsOf (scan (first ++ "\n" ++ second)) = [] := by
  rw [scan_joined second (closed_of_lexicalErrorsOf clean), lexicalErrorsOf_append,
    lexicalErrorsOf_map_lowerItem, clean']
  rw [scan_eq, lexicalErrorsOf_append] at clean
  rw [(List.append_eq_nil_iff.1 clean).1]
  rfl

theorem munch_ne_eof (c : Char) (cs : List Char) : (munch c cs).1 ≠ .token .eof := by
  intro h
  unfold munch at h
  dsimp only at h
  repeat' split at h
  all_goals cases h

theorem reading_ne_eof {text : List Char} {p : Piece} (hp : p ∈ pieces text) :
    p.reading ≠ .token .eof := by
  match text with
  | [] => simp at hp
  | c :: cs =>
      rw [pieces_cons, List.mem_cons] at hp
      rcases hp with rfl | hp
      · exact munch_ne_eof c cs
      · exact reading_ne_eof hp
termination_by text.length
decreasing_by simp only [List.length_drop, List.length_cons]; omega

/-- Only the token that closes a scan is an end of file. -/
theorem terminal_ne_eof {source : String} {t : Token} (ht : t ∈ properTokens source) :
    t.terminal ≠ .eof := by
  refine of_mem_itemsFrom (P := fun t => t.terminal ≠ .eof) (fun p hp kind hk line => ?_) 1
    (mem_of_mem_tokensOf ht)
  have ne := reading_ne_eof hp
  rw [hk] at ne
  cases kind with
  | eof => exact absurd rfl ne
  | _ => simp [Token.terminal, Kind.terminal]

end Lox
