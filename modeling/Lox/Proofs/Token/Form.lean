import Mathlib.Data.List.TakeWhile
import Lox.Proofs.Token.Joined

/-!
# The form of tokens

`Forms kind text` says what tokens look like: symbols and words are written as they are spelled,
strings stand in quotes, numbers are digits with a fraction or without, and names are letters,
digits and underscores.  It does not say how a text is cut.

The first character of a token tells what it can be (`Forms.of_quote`, `Forms.of_digit`,
`Forms.of_name`, `Forms.of_mark`), so that a text has at most one kind (`Forms.kind_eq`).  What is
cut off a text first is the longest token there, unless it is a blank or a comment or nothing that
is a token starts there (`firstPiece_munch`).
-/

namespace Lox

/-! ### Characters -/

theorem eq_of_isBlank {c : Char} (blank : isBlank c) :
    c = ' ' ∨ c = '\t' ∨ c = '\r' ∨ c = '\n' := by
  simpa [isBlank, or_assoc] using blank

theorem isNameStart_of_isDigit {c : Char} (digit : c.isDigit) : isNameStart c = false := by
  rw [Char.isDigit, Bool.and_eq_true, decide_eq_true_iff, decide_eq_true_iff] at digit
  rw [isNameStart, Bool.or_eq_false_iff]
  constructor
  · refine Bool.eq_false_iff.2 fun alpha => ?_
    -- The letters are behind the digits.
    rcases Bool.or_eq_true_iff.1 alpha with upper | lower
    · have above := (of_decide_eq_true upper).1
      exact absurd (UInt32.le_trans above digit.2) (by decide)
    · have above := of_decide_eq_true (Bool.and_eq_true_iff.1 lower).1
      exact absurd (UInt32.le_trans above digit.2) (by decide)
  · rw [beq_eq_false_iff_ne]
    rintro rfl
    exact absurd digit.2 (by decide)

theorem isNameChar_of_isDigit {c : Char} (digit : c.isDigit) : isNameChar c := by
  rw [isNameChar, Char.isAlphanum, digit, Bool.or_true]
  rfl

theorem isNameChar_of_isNameStart {c : Char} (start : isNameStart c) : isNameChar c := by
  rw [isNameStart, Bool.or_eq_true] at start
  rw [isNameChar, Char.isAlphanum, Bool.or_eq_true, Bool.or_eq_true]
  exact start.imp_left Or.inl

/-- No symbol starts like another token, or with a blank. -/
theorem symbol?_of_other {c : Char} (next : Option Char)
    (other : c.isDigit ∨ isNameStart c ∨ isBlank c ∨ c = '"') : symbol? c next = none := by
  unfold symbol?
  split <;> first | rfl | exact absurd other (by decide)

/-- Whether a symbol starts with a character does not depend on the next one. -/
theorem isSome_symbol? (c : Char) (next next' : Option Char) :
    (symbol? c next).isSome = (symbol? c next').isSome := by
  unfold symbol?
  split <;> rfl

/-- A symbol is at most two characters long, and the second one is an equals sign. -/
theorem Symbol.exists_spelling (mark : Symbol) :
    ∃ c cs, mark.spelling.toList = c :: cs ∧ symbol? c cs.head? = some mark ∧
      (cs = [] ∨ cs = ['=']) := by
  cases mark <;> exact ⟨_, _, rfl, rfl, by decide⟩

theorem Symbol.symbol?_spelling {mark : Symbol} {c : Char} {cs : List Char}
    (spelling : mark.spelling.toList = c :: cs) :
    symbol? c cs.head? = some mark ∧ (cs = [] ∨ cs = ['=']) := by
  obtain ⟨d, ds, same, rest⟩ := mark.exists_spelling
  obtain ⟨rfl, rfl⟩ := List.cons.inj (spelling.symm.trans same)
  exact rest

/-- A symbol that is found is there. -/
theorem spelling_of_symbol? {c : Char} {cs : List Char} {mark : Symbol}
    (found : symbol? c cs.head? = some mark) :
    mark.spelling.toList = c :: cs.take (mark.spelling.length - 1) := by
  unfold symbol? at found
  split at found
  all_goals try split at found
  all_goals cases found
  all_goals try rfl
  all_goals
    rename_i equals
    obtain ⟨rest, rfl⟩ := List.head?_eq_some_iff.1 equals
    rfl

theorem Keyword.exists_spelling (word : Keyword) :
    ∃ c cs, word.spelling.toList = c :: cs ∧ isNameStart c ∧ ∀ d ∈ cs, isNameChar d := by
  cases word <;> exact ⟨_, _, rfl, rfl, List.all_eq_true.1 rfl⟩

/-! ### Tokens -/

inductive Forms : Kind → List Char → Prop
  | symbol (mark : Symbol) : Forms (.symbol mark) mark.spelling.toList
  | string {contents : List Char} (inside : '"' ∉ contents) :
      Forms (.string (String.ofList contents)) ('"' :: (contents ++ ['"']))
  | whole {digits : List Char} (some : digits ≠ []) (all : ∀ c ∈ digits, c.isDigit) :
      Forms (.number (Number.ofDigits digits [])) digits
  | decimal {digits fraction : List Char} (some : digits ≠ []) (all : ∀ c ∈ digits, c.isDigit)
      (some' : fraction ≠ []) (all' : ∀ c ∈ fraction, c.isDigit) :
      Forms (.number (Number.ofDigits digits fraction)) (digits ++ '.' :: fraction)
  | keyword (word : Keyword) : Forms (.keyword word) word.spelling.toList
  | identifier {c : Char} {cs : List Char} (start : isNameStart c) (rest : ∀ d ∈ cs, isNameChar d)
      (free : ∀ word : Keyword, word.spelling ≠ String.ofList (c :: cs)) :
      Forms .identifier (c :: cs)

/-- How the fraction of a number is written: the point belongs to a fraction that has digits. -/
def fractionText (fraction : List Char) : List Char :=
  if fraction = [] then [] else '.' :: fraction

theorem length_fractionText (fraction : List Char) :
    (fractionText fraction).length = fractionLength fraction := by
  cases fraction <;> rfl

theorem fractionText_inj {fraction fraction' : List Char}
    (same : fractionText fraction = fractionText fraction') : fraction = fraction' := by
  cases fraction <;> cases fraction' <;> simp_all [fractionText]

/-- The digits before a fraction are all the digits that there are. -/
theorem takeWhile_append_fraction {digits : List Char} (fraction rest : List Char)
    (all : ∀ d ∈ digits, d.isDigit) (stops : fraction ≠ [] ∨ rest = []) :
    (digits ++ (fractionText fraction ++ rest)).takeWhile Char.isDigit = digits := by
  rw [List.takeWhile_append_of_pos all, List.append_right_eq_self]
  cases fraction with
  | nil =>
      rw [stops.resolve_left fun ne => ne rfl]
      rfl
  | cons d fraction => rfl

def nameKind (name : List Char) : Kind :=
  match Keyword.ofSpelling? (String.ofList name) with
  | some word => .keyword word
  | none => .identifier

theorem Keyword.ofSpelling?_eq_none {text : String} :
    Keyword.ofSpelling? text = none ↔ ∀ word : Keyword, word.spelling ≠ text := by
  constructor
  · rintro none word rfl
    rw [Keyword.ofSpelling?_spelling] at none
    cases none
  · intro free
    cases found : Keyword.ofSpelling? text with
    | none => rfl
    | some word => exact absurd (Keyword.spelling_of_ofSpelling? found) (free word)

namespace Forms

variable {kind kind' : Kind} {c : Char} {cs text : List Char}

theorem ne_nil (h : Forms kind text) : text ≠ [] := by
  cases h with
  | symbol mark =>
      obtain ⟨c, cs, spelling, -⟩ := mark.exists_spelling
      simp [spelling]
  | keyword word =>
      obtain ⟨c, cs, spelling, -⟩ := word.exists_spelling
      simp [spelling]
  | whole some all => exact some
  | decimal some all some' all' => simp
  | string inside => exact List.cons_ne_nil _ _
  | identifier start rest free => exact List.cons_ne_nil _ _

/-- What a token can be, by its first character. -/
theorem by_first (h : Forms kind (c :: cs)) :
    (∃ mark, kind = .symbol mark ∧ mark.spelling.toList = c :: cs) ∨
    (c = '"' ∧ ∃ contents, kind = .string (String.ofList contents) ∧ '"' ∉ contents ∧
      cs = contents ++ ['"']) ∨
    (c.isDigit ∧ ∃ others fraction, kind = .number (Number.ofDigits (c :: others) fraction) ∧
      (∀ d ∈ others, d.isDigit) ∧ (∀ d ∈ fraction, d.isDigit) ∧
      cs = others ++ fractionText fraction) ∨
    (isNameStart c ∧ kind = nameKind (c :: cs) ∧ ∀ d ∈ cs, isNameChar d) := by
  generalize same : c :: cs = text at h
  cases h with
  | symbol mark =>
      exact Or.inl ⟨mark, rfl, rfl⟩
  | string inside =>
      obtain ⟨rfl, rfl⟩ := List.cons.inj same
      exact Or.inr (Or.inl ⟨rfl, _, rfl, inside, rfl⟩)
  | whole some all =>
      subst same
      obtain ⟨first, rest⟩ := List.forall_mem_cons.1 all
      exact Or.inr (Or.inr (Or.inl ⟨first, cs, [], rfl, rest, by simp, by simp [fractionText]⟩))
  | @decimal digits fraction some all some' all' =>
      obtain ⟨d, others, rfl⟩ := List.exists_cons_of_ne_nil some
      obtain ⟨rfl, rfl⟩ := List.cons.inj same
      obtain ⟨first, rest⟩ := List.forall_mem_cons.1 all
      refine Or.inr (Or.inr (Or.inl ⟨first, others, fraction, rfl, rest, all', ?_⟩))
      rw [fractionText, if_neg some']
      rfl
  | keyword word =>
      obtain ⟨c', cs', spelling, start, rest⟩ := word.exists_spelling
      obtain ⟨rfl, rfl⟩ := List.cons.inj (same.trans spelling)
      refine Or.inr (Or.inr (Or.inr ⟨start, ?_, rest⟩))
      rw [nameKind, String.ofList_toList, Keyword.ofSpelling?_spelling]
  | identifier start rest free =>
      obtain ⟨rfl, rfl⟩ := List.cons.inj same
      refine Or.inr (Or.inr (Or.inr ⟨start, ?_, rest⟩))
      rw [nameKind, Keyword.ofSpelling?_eq_none.2 free]

theorem of_quote (h : Forms kind ('"' :: cs)) :
    ∃ contents, kind = .string (String.ofList contents) ∧ '"' ∉ contents ∧
      cs = contents ++ ['"'] := by
  rcases h.by_first with ⟨mark, -, spelling⟩ | ⟨-, string⟩ | ⟨digit, -⟩ | ⟨start, -⟩
  · cases (Symbol.symbol?_spelling spelling).1
  · exact string
  · exact absurd digit (by decide)
  · exact absurd start (by decide)

theorem of_digit (digit : c.isDigit) (h : Forms kind (c :: cs)) :
    ∃ others fraction, kind = .number (Number.ofDigits (c :: others) fraction) ∧
      (∀ d ∈ others, d.isDigit) ∧ (∀ d ∈ fraction, d.isDigit) ∧
      cs = others ++ fractionText fraction := by
  rcases h.by_first with ⟨mark, -, spelling⟩ | ⟨rfl, -⟩ | ⟨-, number⟩ | ⟨start, -⟩
  · have found := (Symbol.symbol?_spelling spelling).1
    rw [symbol?_of_other _ (Or.inl digit)] at found
    cases found
  · exact absurd digit (by decide)
  · exact number
  · rw [isNameStart_of_isDigit digit] at start
    cases start

theorem of_name (start : isNameStart c) (h : Forms kind (c :: cs)) :
    kind = nameKind (c :: cs) ∧ ∀ d ∈ cs, isNameChar d := by
  rcases h.by_first with ⟨mark, -, spelling⟩ | ⟨rfl, -⟩ | ⟨digit, -⟩ | ⟨-, name⟩
  · have found := (Symbol.symbol?_spelling spelling).1
    rw [symbol?_of_other _ (Or.inr (Or.inl start))] at found
    cases found
  · exact absurd start (by decide)
  · rw [isNameStart_of_isDigit digit] at start
    cases start
  · exact name

/-- A token that starts like no other is a symbol. -/
theorem of_mark (quote : c ≠ '"') (digit : ¬ c.isDigit) (start : ¬ isNameStart c)
    (h : Forms kind (c :: cs)) :
    ∃ mark, kind = .symbol mark ∧ mark.spelling.toList = c :: cs := by
  rcases h.by_first with symbol | ⟨rfl, -⟩ | ⟨is_digit, -⟩ | ⟨is_start, -⟩
  · exact symbol
  · exact absurd rfl quote
  · exact absurd is_digit digit
  · exact absurd is_start start

/-- A text has at most one kind. -/
theorem kind_eq (h : Forms kind text) (h' : Forms kind' text) : kind = kind' := by
  cases text with
  | nil => exact absurd rfl h.ne_nil
  | cons c cs =>
      by_cases quote : c = '"'
      · subst quote
        obtain ⟨contents, rfl, -, rfl⟩ := h.of_quote
        obtain ⟨contents', rfl, -, same⟩ := h'.of_quote
        rw [List.append_cancel_right same]
      by_cases digit : c.isDigit
      · obtain ⟨others, fraction, rfl, all, -, rfl⟩ := h.of_digit digit
        obtain ⟨others', fraction', rfl, all', -, same⟩ := h'.of_digit digit
        have digits : others = others' := by
          have first := takeWhile_append_fraction fraction [] all (Or.inr rfl)
          have second := takeWhile_append_fraction fraction' [] all' (Or.inr rfl)
          rw [List.append_nil] at first second
          rw [← first, ← second, same]
        subst digits
        rw [fractionText_inj (List.append_cancel_left same)]
      by_cases start : isNameStart c
      · rw [(h.of_name start).1, (h'.of_name start).1]
      · obtain ⟨mark, rfl, spelling⟩ := h.of_mark quote digit start
        obtain ⟨mark', rfl, spelling'⟩ := h'.of_mark quote digit start
        have found := (Symbol.symbol?_spelling spelling).1
        rw [Option.some.inj (found.symm.trans (Symbol.symbol?_spelling spelling').1)]

/-- Words are told from names by their spelling. -/
theorem keyword_iff (h : Forms kind text) (word : Keyword) :
    kind = .keyword word ↔ String.ofList text = word.spelling := by
  constructor
  · rintro rfl
    cases h
    rw [String.ofList_toList]
  · intro same
    have lexeme : text = word.spelling.toList := by
      rw [← same, String.toList_ofList]
    rw [lexeme] at h
    exact h.kind_eq (.keyword word)

/-- No token starts with a blank. -/
theorem not_isBlank (h : Forms kind (c :: cs)) : isBlank c = false := by
  cases blank : isBlank c with
  | false => rfl
  | true =>
      have first := eq_of_isBlank blank
      have quote : c ≠ '"' := by
        rcases first with rfl | rfl | rfl | rfl <;> decide
      have digit : ¬ c.isDigit := by
        rcases first with rfl | rfl | rfl | rfl <;> decide
      have start : ¬ isNameStart c := by
        rcases first with rfl | rfl | rfl | rfl <;> decide
      obtain ⟨mark, -, spelling⟩ := h.of_mark quote digit start
      have found := (Symbol.symbol?_spelling spelling).1
      rw [symbol?_of_other _ (Or.inr (Or.inr (Or.inl blank)))] at found
      cases found

end Forms

/-! ### The longest token -/

/-- The first token of a text: no longer one starts there. -/
structure Longest (kind : Kind) (text rest : List Char) : Prop where
  forms : Forms kind text
  starts : text <+: rest
  longest : ∀ kind' text', Forms kind' text' → text' <+: rest → text'.length ≤ text.length

/-- No token starts there. -/
def NoToken (rest : List Char) : Prop := ∀ kind text, Forms kind text → ¬ text <+: rest

theorem Longest.unique {kind kind' : Kind} {text text' rest : List Char}
    (h : Longest kind text rest) (h' : Longest kind' text' rest) : text = text' ∧ kind = kind' := by
  have length : text.length = text'.length :=
    Nat.le_antisymm (h'.longest _ _ h.forms h.starts) (h.longest _ _ h'.forms h'.starts)
  have starts := List.prefix_of_prefix_length_le h.starts h'.starts length.le
  have same : text = text' := starts.eq_of_length length
  subst same
  exact ⟨rfl, h.forms.kind_eq h'.forms⟩

variable {c : Char} {cs : List Char}

theorem length_le_takeWhile {p : Char → Bool} {xs rest : List Char} (all : ∀ x ∈ xs, p x)
    (starts : xs <+: rest) : xs.length ≤ (rest.takeWhile p).length := by
  obtain ⟨ys, rfl⟩ := starts
  rw [List.takeWhile_append_of_pos all, List.length_append]
  exact Nat.le_add_right _ _

/-- The contents of a string end before its closing quote. -/
theorem takeWhile_contents {contents : List Char} (inside : '"' ∉ contents) (rest : List Char) :
    (contents ++ '"' :: rest).takeWhile (· ≠ '"') = contents := by
  have all : ∀ d ∈ contents, decide (d ≠ '"') := by
    intro d hd
    exact decide_eq_true fun same => inside (same ▸ hd)
  rw [List.takeWhile_append_of_pos all]
  simp

/-- A quote comes after the contents of a string that is closed. -/
theorem exists_closing (more : (cs.takeWhile (· ≠ '"')).length ≠ cs.length) :
    ∃ contents rest, '"' ∉ contents ∧ cs = contents ++ '"' :: rest := by
  have quote : '"' ∈ cs := by
    by_contra none
    have all : cs.takeWhile (· ≠ '"') = cs :=
      List.takeWhile_eq_self_iff.2 fun d hd => decide_eq_true fun same => none (same ▸ hd)
    exact more (by rw [all])
  obtain ⟨contents, rest, rfl, inside⟩ := List.eq_append_cons_of_mem quote
  exact ⟨contents, rest, inside, rfl⟩

theorem longest_string {contents : List Char} (inside : '"' ∉ contents) (rest : List Char) :
    Longest (.string (String.ofList contents)) ('"' :: (contents ++ ['"']))
      ('"' :: (contents ++ '"' :: rest)) := by
  refine ⟨.string inside, ⟨rest, by simp⟩, ?_⟩
  rintro kind' text' forms ⟨rest', same⟩
  cases text' with
  | nil => exact Nat.zero_le _
  | cons d cs' =>
      obtain ⟨rfl, behind⟩ := List.cons.inj same
      obtain ⟨contents', -, inside', rfl⟩ := forms.of_quote
      have contents_eq : contents' = contents := by
        have first := takeWhile_contents inside' rest'
        rw [← first, ← takeWhile_contents inside rest, ← behind]
        simp
      rw [contents_eq]

/-- A text in which no quote follows the first one starts with no token. -/
theorem noToken_of_quote (none : '"' ∉ cs) : NoToken ('"' :: cs) := by
  rintro kind text forms ⟨rest, same⟩
  cases text with
  | nil => exact forms.ne_nil rfl
  | cons d cs' =>
      obtain ⟨rfl, rfl⟩ := List.cons.inj same
      obtain ⟨contents, -, -, rfl⟩ := forms.of_quote
      exact none (by simp)

theorem isDigit_of_mem_fractionDigits {rest : List Char} {d : Char}
    (hd : d ∈ fractionDigits rest) : d.isDigit := by
  unfold fractionDigits at hd
  split at hd
  · exact List.mem_takeWhile_imp hd
  · cases hd

/-- The fraction at the start of a text. -/
theorem fractionText_prefix (rest : List Char) :
    fractionText (fractionDigits rest) <+: rest := by
  cases rest with
  | nil => exact List.nil_prefix
  | cons d rest =>
      by_cases point : d = '.'
      · subst point
        rw [fractionDigits, fractionText]
        split
        · exact List.nil_prefix
        · exact List.cons_prefix_cons.2 ⟨rfl, List.takeWhile_prefix _⟩
      · have none : fractionDigits (d :: rest) = [] := by simp [fractionDigits, point]
        rw [none]
        exact List.nil_prefix

/-- No number at the start of a text is longer than its digits and the fraction after them. -/
theorem length_number_le {others fraction rest : List Char} (all : ∀ d ∈ others, d.isDigit)
    (all' : ∀ d ∈ fraction, d.isDigit) (same : others ++ (fractionText fraction ++ rest) = cs) :
    let whole := cs.takeWhile Char.isDigit
    (others ++ fractionText fraction).length ≤
      (whole ++ fractionText (fractionDigits (cs.drop whole.length))).length := by
  intro whole
  cases fraction with
  | nil =>
      have short : others.length ≤ whole.length := length_le_takeWhile all ⟨_, same⟩
      have none : (fractionText []).length = 0 := rfl
      rw [List.length_append, List.length_append]
      omega
  | cons d fraction =>
      -- The other number has a point after the same digits.
      have digits : whole = others := by
        have first := takeWhile_append_fraction (d :: fraction) rest all
          (Or.inl (List.cons_ne_nil d fraction))
        rwa [same] at first
      have more : fractionDigits (fractionText (d :: fraction) ++ rest) =
          d :: fraction ++ rest.takeWhile Char.isDigit := List.takeWhile_append_of_pos all'
      rw [digits, ← same, List.drop_left, more]
      simp [fractionText]

theorem longest_number (cs : List Char) (digit : c.isDigit) :
    let whole := cs.takeWhile Char.isDigit
    let fraction := fractionDigits (cs.drop whole.length)
    Longest (.number (Number.ofDigits (c :: whole) fraction))
      (c :: (whole ++ fractionText fraction)) (c :: cs) := by
  intro whole fraction
  have split : cs = whole ++ cs.drop whole.length := by
    have taken := List.prefix_iff_eq_take.1 (List.takeWhile_prefix (l := cs) Char.isDigit)
    conv_lhs => rw [← List.take_append_drop whole.length cs, ← taken]
  have all : ∀ d ∈ c :: whole, d.isDigit :=
    List.forall_mem_cons.2 ⟨digit, fun d hd => List.mem_takeWhile_imp hd⟩
  have all' : ∀ d ∈ fraction, d.isDigit := fun d hd => isDigit_of_mem_fractionDigits hd
  refine ⟨?_, ?_, ?_⟩
  · by_cases none : fraction = []
    · rw [none, fractionText, if_pos rfl, List.append_nil]
      exact .whole (List.cons_ne_nil _ _) all
    · rw [fractionText, if_neg none]
      exact .decimal (List.cons_ne_nil _ _) all none all'
  · obtain ⟨rest, more⟩ := fractionText_prefix (cs.drop whole.length)
    refine ⟨rest, ?_⟩
    conv_rhs => rw [split, ← more]
    simp [fraction]
  · rintro kind' text' forms ⟨rest', same⟩
    cases text' with
    | nil => exact Nat.zero_le _
    | cons d cs' =>
        obtain ⟨rfl, tail⟩ := List.cons.inj same
        obtain ⟨others, fraction', -, others_all, fraction_all, rfl⟩ := forms.of_digit digit
        rw [List.append_eq, List.append_assoc] at tail
        exact Nat.succ_le_succ (length_number_le others_all fraction_all tail)

theorem longest_name (cs : List Char) (start : isNameStart c) :
    Longest (nameKind (c :: cs.takeWhile isNameChar)) (c :: cs.takeWhile isNameChar)
      (c :: cs) := by
  refine ⟨?_, List.cons_prefix_cons.2 ⟨rfl, List.takeWhile_prefix _⟩, ?_⟩
  · rw [nameKind]
    cases found : Keyword.ofSpelling? (String.ofList (c :: cs.takeWhile isNameChar)) with
    | some word =>
        have spelling := Keyword.spelling_of_ofSpelling? found
        have text : c :: cs.takeWhile isNameChar = word.spelling.toList := by
          rw [spelling, String.toList_ofList]
        rw [text]
        exact .keyword word
    | none =>
        exact .identifier start (fun d hd => List.mem_takeWhile_imp hd)
          (Keyword.ofSpelling?_eq_none.1 found)
  · rintro kind' text' forms starts
    cases text' with
    | nil => exact Nat.zero_le _
    | cons d cs' =>
        obtain ⟨rfl, behind⟩ := List.cons_prefix_cons.1 starts
        exact Nat.succ_le_succ (length_le_takeWhile (forms.of_name start).2 behind)

theorem longest_symbol (quote : c ≠ '"') (digit : ¬ c.isDigit) (start : ¬ isNameStart c)
    {mark : Symbol} (found : symbol? c cs.head? = some mark) :
    Longest (.symbol mark) (c :: cs.take (mark.spelling.length - 1)) (c :: cs) := by
  have spelling := spelling_of_symbol? found
  refine ⟨?_, List.cons_prefix_cons.2 ⟨rfl, List.take_prefix _ _⟩, ?_⟩
  · rw [← spelling]
    exact .symbol mark
  · rintro kind' text' forms starts
    cases text' with
    | nil => exact Nat.zero_le _
    | cons d cs' =>
        obtain ⟨rfl, behind⟩ := List.cons_prefix_cons.1 starts
        obtain ⟨mark', -, spelling'⟩ := forms.of_mark quote digit start
        obtain ⟨found', short⟩ := Symbol.symbol?_spelling spelling'
        rcases short with rfl | rfl
        · exact Nat.succ_le_succ (Nat.zero_le _)
        · -- The equals sign is joined to either symbol, so they are the same.
          obtain ⟨rest, rfl⟩ := behind
          obtain rfl := Option.some.inj (found'.symm.trans found)
          rw [← spelling, spelling']

theorem noToken_of_mark (quote : c ≠ '"') (digit : ¬ c.isDigit) (start : ¬ isNameStart c)
    (none : symbol? c cs.head? = none) : NoToken (c :: cs) := by
  intro kind text forms starts
  cases text with
  | nil => exact forms.ne_nil rfl
  | cons d cs' =>
      obtain ⟨rfl, -⟩ := List.cons_prefix_cons.1 starts
      obtain ⟨mark, -, spelling⟩ := forms.of_mark quote digit start
      have found := isSome_symbol? d cs.head? cs'.head?
      rw [none, (Symbol.symbol?_spelling spelling).1] at found
      cases found

/-! ### The first piece -/

/-- What the first piece of the text `c :: cs` is, and how many characters of `cs` it has. -/
inductive FirstPiece (c : Char) (cs : List Char) : Reading × Nat → Prop
  | blank (blank : isBlank c) : FirstPiece c cs (.blank, 0)
  | comment {rest : List Char} (slash : c = '/') (slash' : cs = '/' :: rest) :
      FirstPiece c cs (.comment, (rest.takeWhile (· ≠ '\n')).length + 1)
  | token {kind : Kind} {extent : Nat} (code : ¬ ['/', '/'] <+: c :: cs)
      (longest : Longest kind (c :: cs.take extent) (c :: cs)) (fits : extent ≤ cs.length) :
      FirstPiece c cs (.token kind, extent)
  | unexpected (visible : ¬ isBlank c) (quote : c ≠ '"') (none : NoToken (c :: cs)) :
      FirstPiece c cs (.unexpected c, 0)
  | unterminated (quote : c = '"') (open_ : '"' ∉ cs) : FirstPiece c cs (.unterminated, cs.length)

/-- The first piece of a text behind a quote: a string, or all of the text if it is not closed. -/
theorem firstPiece_quote (cs : List Char) : FirstPiece '"' cs
    (let contents := cs.takeWhile (· ≠ '"')
    if contents.length = cs.length then (.unterminated, cs.length)
    else (.token (.string (String.ofList contents)), contents.length + 1)) := by
  dsimp only
  split
  · rename_i all
    refine .unterminated rfl fun quote => ?_
    obtain ⟨contents, rest, rfl, inside⟩ := List.eq_append_cons_of_mem quote
    rw [takeWhile_contents inside] at all
    simp at all
  · rename_i more
    obtain ⟨contents, rest, inside, rfl⟩ := exists_closing more
    have taken : (contents ++ '"' :: rest).take (contents.length + 1) = contents ++ ['"'] :=
      List.take_length_add_append 1
    have code : ¬ ['/', '/'] <+: '"' :: (contents ++ '"' :: rest) := by
      intro slashes
      cases (List.cons_prefix_cons.1 slashes).1
    rw [takeWhile_contents inside]
    refine .token code ?_ ?_
    · rw [taken]
      exact longest_string inside rest
    · simp

theorem firstPiece_munch (c : Char) (cs : List Char) : FirstPiece c cs (munch c cs) := by
  unfold munch
  by_cases blank : isBlank c
  · rw [if_pos blank]
    exact .blank blank
  rw [if_neg blank]
  by_cases comment : c = '/' ∧ cs.head? = some '/'
  · rw [if_pos comment]
    obtain ⟨slash, next⟩ := comment
    obtain ⟨rest, rfl⟩ := List.head?_eq_some_iff.1 next
    exact .comment slash rfl
  rw [if_neg comment]
  have code : ¬ ['/', '/'] <+: c :: cs := by
    rintro ⟨rest, same⟩
    obtain ⟨rfl, rfl⟩ := List.cons.inj same
    exact comment ⟨rfl, rfl⟩
  by_cases quote : c = '"'
  · rw [if_pos quote]
    subst quote
    exact firstPiece_quote cs
  rw [if_neg quote]
  by_cases digit : c.isDigit
  · rw [if_pos digit]
    have longest := longest_number cs digit
    have behind := (List.cons_prefix_cons.1 longest.starts).2
    have taken := List.prefix_iff_eq_take.1 behind
    have fits := behind.length_le
    rw [List.length_append, length_fractionText] at taken fits
    refine .token code ?_ fits
    rw [← taken]
    exact longest
  rw [if_neg digit]
  by_cases start : isNameStart c
  · rw [if_pos start]
    have longest := longest_name cs start
    have taken := List.prefix_iff_eq_take.1 (List.takeWhile_prefix (l := cs) isNameChar)
    refine .token code ?_ (length_takeWhile_le _ cs)
    rw [← taken]
    exact longest
  rw [if_neg start]
  cases found : symbol? c cs.head? with
  | none => exact .unexpected blank quote (noToken_of_mark quote digit start found)
  | some mark =>
      exact .token code (longest_symbol quote digit start found) (spelling_le_of_symbol? found)

end Lox
