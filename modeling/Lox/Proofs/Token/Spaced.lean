import Lox.Proofs.Token.Form

/-!
# Tokens written apart

The tokens of a text can be written down again with blanks between them.  `Spaced lexemes text` says
that a text is made in this way.  Whatever stood beside a token before, it is read as itself now: no
token but a string goes on over a blank, so that each lexeme is the longest token where it stands
(`Forms.longest`), and what was cut off a text first is cut off again (`pieces_of_longest`).

So a scan of the new text has no errors, and its tokens are those that were written
(`scan_of_spaced`).
-/

namespace Lox

/-- The text consists of the lexemes in their order, with blanks between them. -/
inductive Spaced : List String → List Char → Prop
  | nil : Spaced [] []
  | one (lexeme : String) : Spaced [lexeme] lexeme.toList
  | cons (lexeme : String) {next : String} {others : List String} {gap text : List Char}
      (some : gap ≠ []) (blank : ∀ c ∈ gap, isBlank c) (rest : Spaced (next :: others) text) :
      Spaced (lexeme :: next :: others) (lexeme.toList ++ (gap ++ text))

/-- A token wherever it stands: what it is and how it is written. -/
def Token.content (t : Token) : Kind × String := (t.kind, t.lexeme)

/-! ### Blanks end tokens -/

theorem isBlank_of_isNameChar {c : Char} (name : isNameChar c) : isBlank c = false := by
  refine Bool.eq_false_iff.2 fun blank => ?_
  rcases eq_of_isBlank blank with rfl | rfl | rfl | rfl <;> exact absurd name (by decide)

/-- Only a string has blanks inside. -/
theorem Forms.exists_quote {kind : Kind} {text : List Char} (h : Forms kind text) {b : Char}
    (inside : b ∈ text) (blank : isBlank b) : ∃ cs, text = '"' :: cs := by
  have name (all : ∀ c ∈ text, isNameChar c) : ∃ cs, text = '"' :: cs := by
    rw [isBlank_of_isNameChar (all b inside)] at blank
    cases blank
  cases h with
  | symbol mark =>
      obtain ⟨c, cs, spelling, found, rest⟩ := mark.exists_spelling
      rw [spelling] at inside
      rcases List.mem_cons.1 inside with rfl | inside
      · rw [symbol?_of_other _ (Or.inr (Or.inr (Or.inl blank)))] at found
        cases found
      · rcases rest with rfl | rfl
        · cases inside
        · cases List.mem_singleton.1 inside
          cases blank
  | string inside => exact ⟨_, rfl⟩
  | whole some all => exact name fun c hc => isNameChar_of_isDigit (all c hc)
  | decimal some all some' all' =>
      rcases List.mem_append.1 inside with digit | inside
      · rw [isBlank_of_isNameChar (isNameChar_of_isDigit (all b digit))] at blank
        cases blank
      rcases List.mem_cons.1 inside with rfl | digit
      · cases blank
      · rw [isBlank_of_isNameChar (isNameChar_of_isDigit (all' b digit))] at blank
        cases blank
  | keyword word =>
      obtain ⟨c, cs, spelling, start, rest⟩ := word.exists_spelling
      refine name ?_
      rw [spelling]
      exact List.forall_mem_cons.2 ⟨isNameChar_of_isNameStart start, rest⟩
  | identifier start rest free =>
      exact name (List.forall_mem_cons.2 ⟨isNameChar_of_isNameStart start, rest⟩)

/-- Nothing comes after the token, or a blank does. -/
def Apart (rest : List Char) : Prop := ∀ b ∈ rest.head?, isBlank b

namespace Forms

variable {kind : Kind} {text rest : List Char}

/-- A token that is set apart is the longest one where it stands. -/
theorem longest (h : Forms kind text) (apart : Apart rest) :
    Longest kind text (text ++ rest) := by
  by_cases quote : ∃ cs, text = '"' :: cs
  · obtain ⟨cs, rfl⟩ := quote
    obtain ⟨contents, rfl, inside, rfl⟩ := h.of_quote
    have longest := longest_string inside rest
    rwa [List.cons_append, List.append_assoc]
  refine ⟨h, List.prefix_append _ _, fun kind' text' forms starts => ?_⟩
  refine Nat.le_of_not_lt fun longer => quote ?_
  -- A longer token would have the blank inside, so it would be a string.
  obtain ⟨more, rfl⟩ :=
    List.prefix_of_prefix_length_le (List.prefix_append text rest) starts longer.le
  rw [List.prefix_append_right_inj] at starts
  cases more with
  | nil => simp at longer
  | cons b more =>
      obtain ⟨behind, rfl⟩ := starts
      obtain ⟨cs, same⟩ := forms.exists_quote (b := b) (by simp) (apart b rfl)
      obtain ⟨c, cs', rfl⟩ := List.exists_cons_of_ne_nil h.ne_nil
      exact ⟨cs', by rw [(List.cons.inj same).1]⟩

/-- A token that is set apart does not start a comment. -/
theorem no_comment (h : Forms kind text) (apart : Apart rest) : ¬ ['/', '/'] <+: text ++ rest := by
  rintro ⟨behind, same⟩
  obtain ⟨c, cs, rfl⟩ := List.exists_cons_of_ne_nil h.ne_nil
  obtain ⟨rfl, tail⟩ := List.cons.inj same
  obtain ⟨mark, -, spelling⟩ := h.of_mark (by decide) (by decide) (by decide)
  rcases (Symbol.symbol?_spelling spelling).2 with rfl | rfl
  · have rest_eq : rest = '/' :: behind := tail.symm
    exact absurd (apart '/' (by rw [rest_eq]; rfl)) (by decide)
  · cases tail

end Forms

/-! ### Cutting off what was written -/

/-- The longest token of a text is cut off first. -/
theorem pieces_of_longest {kind : Kind} {text rest : List Char}
    (longest : Longest kind text (text ++ rest)) (code : ¬ ['/', '/'] <+: text ++ rest) :
    pieces (text ++ rest) = ⟨.token kind, text⟩ :: pieces rest := by
  obtain ⟨c, cs, rfl⟩ := List.exists_cons_of_ne_nil longest.forms.ne_nil
  have first := firstPiece_munch c (cs ++ rest)
  rw [List.cons_append] at longest code
  rw [List.cons_append, pieces_cons]
  generalize munch c (cs ++ rest) = munched at first
  cases first with
  | blank blank =>
      rw [longest.forms.not_isBlank] at blank
      cases blank
  | @comment after slash slash' =>
      refine absurd ⟨after, ?_⟩ code
      rw [slash, slash']
      rfl
  | @token kind' extent _ longest' fits =>
      obtain ⟨lexeme, rfl⟩ := longest.unique longest'
      have lexeme := (List.cons.inj lexeme).2
      have extent_eq : extent = cs.length := by
        have length := congrArg List.length lexeme
        rw [List.length_take] at length
        omega
      dsimp only
      rw [← lexeme, extent_eq, List.drop_left]
  | unexpected _ _ none => exact absurd longest.starts (none _ _ longest.forms)
  | unterminated quote unclosed =>
      have forms := longest.forms
      subst quote
      obtain ⟨contents, -, -, rfl⟩ := forms.of_quote
      exact absurd (by simp) unclosed

theorem pieces_of_blanks {gap : List Char} (blank : ∀ c ∈ gap, isBlank c) (text : List Char) :
    pieces (gap ++ text) = gap.map (fun c => ⟨.blank, [c]⟩) ++ pieces text := by
  induction gap with
  | nil => rfl
  | cons c gap ih =>
      obtain ⟨first, rest⟩ := List.forall_mem_cons.1 blank
      have munched : munch c (gap ++ text) = (.blank, 0) := by rw [munch, if_pos first]
      rw [List.cons_append, pieces_cons, munched, List.take_zero, List.drop_zero, ih rest]
      rfl

theorem itemsFrom_of_blanks (gap : List Char) (line : Nat) (ps : List Piece) :
    ∃ line', itemsFrom line (gap.map (fun c => ⟨.blank, [c]⟩) ++ ps) = itemsFrom line' ps := by
  induction gap generalizing line with
  | nil => exact ⟨line, rfl⟩
  | cons c gap ih => exact ih _

/-- What a text is cut into has the form of the tokens that it is read as. -/
theorem forms_of_mem_pieces {text : List Char} {p : Piece} (hp : p ∈ pieces text) {kind : Kind}
    (h : p.reading = .token kind) : Forms kind p.text := by
  match text with
  | [] => simp at hp
  | c :: cs =>
      rw [pieces_cons, List.mem_cons] at hp
      rcases hp with rfl | hp
      · have first := firstPiece_munch c cs
        generalize munch c cs = munched at first h
        cases first with
        | token _ longest _ =>
            cases h
            exact longest.forms
        | _ => cases h
      · exact forms_of_mem_pieces hp h
termination_by text.length
decreasing_by simp only [List.length_drop, List.length_cons]; omega

theorem forms_of_mem_properTokens {source : String} {t : Token} (ht : t ∈ properTokens source) :
    Forms t.kind t.lexeme.toList := by
  refine of_mem_itemsFrom (P := fun t => Forms t.kind t.lexeme.toList) (fun p hp kind hk line => ?_)
    1 (mem_of_mem_tokensOf ht)
  rw [String.toList_ofList]
  exact forms_of_mem_pieces hp hk

/-- The results for a text that starts with a token are the token and the results for what comes
after it. -/
theorem itemsFrom_of_forms {kind : Kind} {lexeme : String} (forms : Forms kind lexeme.toList)
    {rest : List Char} (apart : Apart rest) (line : Nat) :
    ∃ line', itemsFrom line (pieces (lexeme.toList ++ rest)) =
      .ok ⟨kind, lexeme, line'⟩ :: itemsFrom line' (pieces rest) := by
  rw [pieces_of_longest (forms.longest apart) (forms.no_comment apart), itemsFrom]
  exact ⟨_, by rw [Piece.item?, String.ofList_toList]; rfl⟩

/-- Tokens that are written with blanks between them are read again. -/
theorem itemsFrom_of_spaced {ts : List Token} (forms : ∀ t ∈ ts, Forms t.kind t.lexeme.toList)
    {text : List Char} (spaced : Spaced (ts.map Token.lexeme) text) (line : Nat) :
    ∃ again : List Token, itemsFrom line (pieces text) = again.map .ok ∧
      again.map Token.content = ts.map Token.content := by
  induction ts generalizing text line with
  | nil =>
      cases spaced
      exact ⟨[], by rw [pieces_nil]; rfl, rfl⟩
  | cons t ts ih =>
      obtain ⟨first, others⟩ := List.forall_mem_cons.1 forms
      cases ts with
      | nil =>
          cases spaced
          have apart : Apart [] := fun _ h => by cases h
          obtain ⟨line', items⟩ := itemsFrom_of_forms first apart line
          rw [List.append_nil, pieces_nil] at items
          exact ⟨[_], items, rfl⟩
      | cons t' ts =>
          obtain _ | _ | @⟨_, _, _, gap, text, some, blank, rest⟩ := spaced
          have apart : Apart (gap ++ text) := by
            obtain ⟨b, gap, rfl⟩ := List.exists_cons_of_ne_nil some
            rintro c ⟨⟩
            exact blank b List.mem_cons_self
          obtain ⟨line', items⟩ := itemsFrom_of_forms first apart line
          obtain ⟨line'', items'⟩ := itemsFrom_of_blanks gap line' (pieces text)
          obtain ⟨again, rest_items, same⟩ := ih others rest line''
          refine ⟨⟨t.kind, t.lexeme, line'⟩ :: again, ?_, ?_⟩
          · rw [items, pieces_of_blanks blank, items', rest_items]
            rfl
          · rw [List.map_cons, same]
            rfl

/-- The tokens of a text that are written down again, with blanks between them, are scanned without
an error, as the same tokens in the same order: they are of the same kinds, with the same values of
literals, and have the same lexemes.  The end of file comes after them. -/
theorem scan_of_spaced {source text : String}
    (spaced : Spaced ((tokensOf (scan source)).dropLast.map Token.lexeme) text.toList) :
    ∃ again : List Token, scan text = (again ++ [endOfFile (linesBefore text)]).map .ok ∧
      again.map Token.content = (tokensOf (scan source)).dropLast.map Token.content := by
  rw [tokensOf_scan, List.dropLast_concat] at spaced ⊢
  obtain ⟨again, items, same⟩ :=
    itemsFrom_of_spaced (fun t ht => forms_of_mem_properTokens ht) spaced 1
  refine ⟨again, ?_, same⟩
  rw [scan_eq, items, lineAfter_eq, flatMap_text_pieces, List.map_append]
  rfl

/-- Tokens that stood side by side: a number before a point, a slash before a string with a comment
mark and a line end inside, and two errors, which are left out. -/
theorem scan_of_spaced_neighbours :
    let source := "1.2./\"//\n\"if_é\""
    let text := "1.2 .\n/\t\"//\n\" if_"
    Spaced ((tokensOf (scan source)).dropLast.map Token.lexeme) text.toList ∧
      ∃ again : List Token, scan text = (again ++ [endOfFile 3]).map .ok ∧
        again.map Token.content = (tokensOf (scan source)).dropLast.map Token.content := by
  intro source text
  have lexemes : (tokensOf (scan source)).dropLast.map Token.lexeme =
      ["1.2", ".", "/", "\"//\n\"", "if_"] := by
    decide +kernel
  have written : text.toList =
      "1.2".toList ++ ([' '] ++ (".".toList ++ (['\n'] ++ ("/".toList ++ (['\t'] ++
        ("\"//\n\"".toList ++ ([' '] ++ "if_".toList))))))) := by
    decide +kernel
  have lines : linesBefore text = 3 := by decide +kernel
  have gap (c : Char) (blank : isBlank c) : ∀ d ∈ [c], isBlank d := by simpa using blank
  have spaced : Spaced ((tokensOf (scan source)).dropLast.map Token.lexeme) text.toList := by
    rw [lexemes, written]
    exact .cons _ (List.cons_ne_nil _ _) (gap ' ' rfl) <|
      .cons _ (List.cons_ne_nil _ _) (gap '\n' rfl) <|
      .cons _ (List.cons_ne_nil _ _) (gap '\t' rfl) <|
      .cons _ (List.cons_ne_nil _ _) (gap ' ' rfl) <| .one _
  refine ⟨spaced, ?_⟩
  rw [← lines]
  exact scan_of_spaced spaced

end Lox
