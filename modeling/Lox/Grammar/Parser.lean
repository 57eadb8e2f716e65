import Lox.Program
import Lox.Grammar.Fault

/-!
# Reading tokens by rules

A `Parser` reads tokens from the front of a token list.  It may fail with a grammar error; it may
also note an error and go on.  It hands out the sites of the expressions it builds.

The list of tokens ends before the end-of-file token, which is kept apart: it can be looked at but
never read.  Repetition is bounded by a number that callers choose as large as the number of
tokens left; each round reads a token at least, so the bound never cuts a repetition short.
-/

namespace Lox

structure ParseState where
  /-- The tokens still to be read. -/
  rest : List Token
  /-- The token after all others. -/
  eof : Token
  /-- The next site to be handed out. -/
  nextSite : Site
  /-- The errors noted so far. -/
  errors : Array GrammarError

abbrev Parser := EStateM GrammarError ParseState

namespace Parser

def peek : Parser Token := fun s => .ok (s.rest.headD s.eof) s

def skip : Parser Unit := fun s => .ok () { s with rest := s.rest.tail }

def fail (fault : GrammarFault) : Parser α := do
  throw ⟨fault, ← peek⟩

def note (fault : GrammarFault) (culprit : Token) : Parser Unit :=
  modify fun s => { s with errors := s.errors.push ⟨fault, culprit⟩ }

def freshSite : Parser Site :=
  modifyGet fun s => (s.nextSite, { s with nextSite := s.nextSite + 1 })

def nextIs (terminals : List Terminal) : Parser Bool := do
  return terminals.contains (← peek).terminal

def accept? (terminals : List Terminal) : Parser (Option Token) := fun s =>
  match s.rest with
  | t :: rest =>
    if terminals.contains t.terminal then .ok (some t) { s with rest } else .ok none s
  | [] => .ok none s

section

variable {terminals : List Terminal} {s : ParseState}

theorem accept?_of_mem {t : Token} {rest : List Token} (next : s.rest = t :: rest)
    (mem : t.terminal ∈ terminals) : accept? terminals s = .ok (some t) { s with rest } := by
  simp [accept?, next, mem]

theorem accept?_of_forall_notMem (other : ∀ t ∈ s.rest.head?, t.terminal ∉ terminals) :
    accept? terminals s = .ok none s := by
  unfold accept?
  cases next : s.rest with
  | nil => rfl
  | cons t rest =>
      rw [next] at other
      simp [other t rfl]

/-- Either the next token is read, or it is another one and nothing changes. -/
theorem accept?_cases (terminals : List Terminal) (s : ParseState) :
    (∃ t rest, s.rest = t :: rest ∧ t.terminal ∈ terminals ∧
      accept? terminals s = .ok (some t) { s with rest }) ∨
    (∀ t ∈ s.rest.head?, t.terminal ∉ terminals) ∧ accept? terminals s = .ok none s := by
  by_cases other : ∀ t ∈ s.rest.head?, t.terminal ∉ terminals
  · exact .inr ⟨other, accept?_of_forall_notMem other⟩
  · obtain ⟨t, first, mem⟩ : ∃ t ∈ s.rest.head?, t.terminal ∈ terminals := by simpa using other
    obtain ⟨rest, next⟩ := List.head?_eq_some_iff.1 first
    exact .inl ⟨t, rest, next, mem, accept?_of_mem next mem⟩

end

/-- Reads as many of these tokens as come next. -/
def acceptAll (terminals : List Terminal) : Parser (List Token) := fun s =>
  .ok (s.rest.takeWhile fun t => terminals.contains t.terminal)
    { s with rest := s.rest.dropWhile fun t => terminals.contains t.terminal }

def expect (terminal : Terminal) (fault : GrammarFault) : Parser Token := do
  match ← accept? [terminal] with
  | some t => return t
  | none => fail fault

/-- Applies a step to its own result until it yields nothing, at most `bound` times. -/
def chain (step : α → Parser (Option α)) : (bound : Nat) → α → Parser α
  | 0, a => pure a
  | bound + 1, a => do
    match ← step a with
    | some b => chain step bound b
    | none => pure a

/-- Reads items up to one of the tokens `stop` and collects those that are not dropped. -/
def itemsUntil (stop : List Terminal) (bound : Nat) (item : Parser (Option α)) :
    Parser (List α) := do
  let items ← chain (fun found => do
    if ← nextIs stop then return none
    match ← item with
    | some a => return some (found.push a)
    | none => return some found) bound #[]
  return items.toList

/-- The number of items that a list of parameters or arguments may have. -/
def itemLimit : Nat := 255

/-- Reads one more item of a list.  An item past the limit is noted and read all the same. -/
def limited (excess : GrammarFault) (item : Parser α) (found : Array α) : Parser (Array α) := do
  if itemLimit ≤ found.size then note excess (← peek)
  return found.push (← item)

/-- Reads items separated by commas up to a closing parenthesis, which is not read. -/
def commaList (excess : GrammarFault) (bound : Nat) (item : Parser α) : Parser (List α) := do
  if ← nextIs [.symbol .rightParen] then return []
  let first ← limited excess item #[]
  let items ← chain (fun found => do
    match ← accept? [.symbol .comma] with
    | some _ => return some (← limited excess item found)
    | none => return none) bound first
  return items.toList

end Parser

end Lox
