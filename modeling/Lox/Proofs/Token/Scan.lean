import Mathlib.Data.List.Basic
import Lox.Token.Scan

/-!
# Tokens of a source text

The results of a scan are those of its pieces, each counted from the line that the pieces before it
end on: `itemsFrom` reads them off without the state of a scan.

A token says how it was written: an identifier is not spelled like a word of the language, and such
a word is spelled in one way only (`Token.Spelled`).
-/

namespace Lox

/-- The line after some pieces that start on a line. -/
def lineAfter (line : Nat) : List Piece → Nat
  | [] => line
  | p :: ps => lineAfter (line + p.newlines) ps

/-- The results of pieces that start on a line. -/
def itemsFrom (line : Nat) : List Piece → List Item
  | [] => []
  | p :: ps => (p.item? line (line + p.newlines)).toList ++ itemsFrom (line + p.newlines) ps

theorem foldl_add (s : Scan) (ps : List Piece) :
    (ps.foldl Scan.add s).line = lineAfter s.line ps ∧
      (ps.foldl Scan.add s).items.toList = s.items.toList ++ itemsFrom s.line ps := by
  induction ps generalizing s with
  | nil => simp [lineAfter, itemsFrom]
  | cons p ps ih =>
      have line : (s.add p).line = s.line + p.newlines := by
        rw [Scan.add]
        split <;> rfl
      have items : (s.add p).items.toList =
          s.items.toList ++ (p.item? s.line (s.line + p.newlines)).toList := by
        rw [Scan.add]
        split <;> simp_all
      rw [List.foldl_cons, lineAfter, itemsFrom, (ih _).1, (ih _).2, line, items]
      simp

def endOfFile (line : Nat) : Token := ⟨.eof, "", line⟩

theorem scan_eq (source : String) :
    scan source = itemsFrom 1 (pieces source.toList) ++
      [.ok (endOfFile (lineAfter 1 (pieces source.toList)))] := by
  obtain ⟨line, items⟩ := foldl_add ⟨1, #[]⟩ (pieces source.toList)
  rw [scan]
  simp [line, items, endOfFile]

/-- A scan is closed by an end-of-file token. -/
theorem exists_eof_mem_scan (source : String) :
    ∃ t ∈ tokensOf (scan source), t.terminal = .eof := by
  refine ⟨endOfFile (lineAfter 1 (pieces source.toList)), ?_, rfl⟩
  rw [scan_eq, tokensOf_append]
  exact List.mem_append_right _ (List.mem_singleton_self _)

/-! ### Spelling -/

structure Token.Spelled (t : Token) : Prop where
  keyword : ∀ word, t.kind = .keyword word → t.lexeme = word.spelling
  identifier : t.kind = .identifier → Keyword.ofSpelling? t.lexeme = none

theorem Keyword.spelling_of_ofSpelling? {text : String} {word : Keyword}
    (h : Keyword.ofSpelling? text = some word) : word.spelling = text := by
  simpa using List.find?_some h

theorem Keyword.ofSpelling?_spelling (word : Keyword) :
    Keyword.ofSpelling? word.spelling = some word := by
  cases word <;> decide

/-- An identifier is not spelled like a word of the language. -/
theorem Token.Spelled.ne_spelling {t : Token} (h : t.Spelled) (hk : t.kind = .identifier)
    (word : Keyword) : t.lexeme ≠ word.spelling := by
  intro same
  have none := h.identifier hk
  rw [same, Keyword.ofSpelling?_spelling] at none
  cases none

/-- Only words and identifiers are told by their spelling. -/
theorem Token.Spelled.of_other {kind : Kind} (hk : ∀ word, kind ≠ .keyword word)
    (hi : kind ≠ .identifier) (lexeme : String) (line : Nat) :
    Token.Spelled ⟨kind, lexeme, line⟩ :=
  ⟨fun word h => absurd h (hk word), fun h => absurd h hi⟩

/-- The first piece of a text is spelled as its kind tells. -/
theorem spelled_munch (c : Char) (cs : List Char) {kind : Kind}
    (h : (munch c cs).1 = .token kind) (line : Nat) :
    Token.Spelled ⟨kind, String.ofList (c :: cs.take (munch c cs).2), line⟩ := by
  unfold munch at h ⊢
  split at h
  · cases h
  rename_i blank
  rw [if_neg blank]
  split at h
  · cases h
  rename_i comment
  rw [if_neg comment]
  split at h
  · dsimp only at h
    split at h
    · cases h
    · cases h
      exact .of_other (fun _ => by simp) (by simp) _ _
  rename_i quote
  rw [if_neg quote]
  split at h
  · cases h
    exact .of_other (fun _ => by simp) (by simp) _ _
  rename_i digit
  rw [if_neg digit]
  split at h
  · rename_i start
    have whole : cs.take (cs.takeWhile isNameChar).length = cs.takeWhile isNameChar :=
      List.prefix_iff_eq_take.1 (List.takeWhile_prefix isNameChar) |>.symm
    rw [if_pos start]
    dsimp only at h ⊢
    rw [whole]
    cases hw : Keyword.ofSpelling? (String.ofList (c :: cs.takeWhile isNameChar)) with
    | none =>
        rw [hw] at h
        cases h
        exact ⟨fun _ h => (by cases h), fun _ => hw⟩
    | some word =>
        rw [hw] at h
        cases h
        refine ⟨fun word' h => ?_, fun h => (by cases h)⟩
        cases h
        exact (Keyword.spelling_of_ofSpelling? hw).symm
  rename_i start
  rw [if_neg start]
  split at h
  · cases h
    exact .of_other (fun _ => by simp) (by simp) _ _
  · cases h

theorem spelled_of_mem_pieces {text : List Char} {p : Piece} (hp : p ∈ pieces text) {kind : Kind}
    (h : p.reading = .token kind) (line : Nat) :
    Token.Spelled ⟨kind, String.ofList p.text, line⟩ := by
  match text with
  | [] => simp at hp
  | c :: cs =>
      rw [pieces_cons, List.mem_cons] at hp
      rcases hp with rfl | hp
      · exact spelled_munch c cs h line
      · exact spelled_of_mem_pieces hp h line
termination_by text.length
decreasing_by simp only [List.length_drop, List.length_cons]; omega

/-- What holds of the tokens that pieces make holds of the tokens among their results. -/
theorem of_mem_itemsFrom {P : Token → Prop} {ps : List Piece}
    (h : ∀ p ∈ ps, ∀ kind, p.reading = .token kind → ∀ line, P ⟨kind, String.ofList p.text, line⟩)
    (line : Nat) {t : Token} (ht : .ok t ∈ itemsFrom line ps) : P t := by
  induction ps generalizing line with
  | nil => cases ht
  | cons p ps ih =>
      rw [itemsFrom, List.mem_append] at ht
      rcases ht with ht | ht
      · rw [Option.mem_toList, Piece.item?] at ht
        cases hr : p.reading with
        | token kind =>
            rw [hr] at ht
            cases ht
            exact h p List.mem_cons_self kind hr _
        | _ =>
            rw [hr] at ht
            cases ht
      · exact ih (fun p hp => h p (List.mem_cons_of_mem _ hp)) _ ht

theorem mem_of_mem_tokensOf {items : List Item} {t : Token} (ht : t ∈ tokensOf items) :
    .ok t ∈ items := by
  obtain ⟨item, hitem, ht⟩ := List.mem_filterMap.1 ht
  cases item with
  | error e => cases ht
  | ok t' => exact Option.some.inj ht ▸ hitem

/-- All tokens of a source text are spelled as their kinds tell. -/
theorem spelled_of_mem_scan {source : String} {t : Token} (ht : t ∈ tokensOf (scan source)) :
    t.Spelled := by
  have item := mem_of_mem_tokensOf ht
  rw [scan_eq, List.mem_append] at item
  rcases item with item | item
  · exact of_mem_itemsFrom (fun p hp kind hk line => spelled_of_mem_pieces hp hk line) 1 item
  · cases List.mem_singleton.1 item
    exact ⟨fun _ h => (by cases h), fun h => (by cases h)⟩

end Lox
