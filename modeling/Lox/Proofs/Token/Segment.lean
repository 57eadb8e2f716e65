import Lox.Proofs.Token.Form

/-!
# The segments of a source text

The results of a scan stand for parts of the source text.  A `Segmentation` lists these parts: they
follow each other without overlapping, each is what its result says, and between them there are only
blanks and comments.  A token is the longest one that starts there, and an error stands only where
no token starts.

The segments are all that there is to say of a scan: its results are those of the one segmentation
of the text, and the end of file after them (`scan_eq_iff_segmentation`).
-/

namespace Lox

/-- The line of the character at a place.  Lines are counted from one. -/
def lineAt (text : List Char) (place : Nat) : Nat := 1 + (text.take place).count '\n'

/-- A part of a text, and the result of the scan that stands for it. -/
structure Segment where
  start : Nat
  stop : Nat
  item : Item

/-- The result is the right one for this part of the text. -/
inductive Segment.Reads (text : List Char) : Segment → Prop
  | token {start stop : Nat} {kind : Kind} (proper : start < stop) (inside : stop ≤ text.length)
      (longest : Longest kind (text.extract start stop) (text.drop start))
      (code : ¬ ['/', '/'] <+: text.drop start) :
      Reads text ⟨start, stop,
        .ok ⟨kind, String.ofList (text.extract start stop), lineAt text (stop - 1)⟩⟩
  | unexpected {start : Nat} {c : Char} (here : text[start]? = some c) (visible : ¬ isBlank c)
      (quote : c ≠ '"') (none : NoToken (text.drop start)) :
      Reads text ⟨start, start + 1, .error (.unexpectedCharacter c (lineAt text start))⟩
  | unterminated {start : Nat} {rest : List Char} (here : text.drop start = '"' :: rest)
      (unclosed : '"' ∉ rest) (none : NoToken (text.drop start)) :
      Reads text ⟨start, text.length, .error (.unterminatedString (lineAt text start))⟩

/-- A text that is passed over, in front of another one: blanks, and comments that go on to the end
of their line. -/
inductive Skipped (behind : List Char) : List Char → Prop
  | nil : Skipped behind []
  | blank {c : Char} {text : List Char} (blank : isBlank c) (rest : Skipped behind text) :
      Skipped behind (c :: text)
  | comment {body text : List Char} (line : '\n' ∉ body)
      (stops : text ++ behind = [] ∨ (text ++ behind).head? = some '\n')
      (rest : Skipped behind text) : Skipped behind ('/' :: '/' :: (body ++ text))

/-- Where a text has no segments from a place on. -/
def gaps (text : List Char) (place : Nat) : List Segment → List (Nat × Nat)
  | [] => [(place, text.length)]
  | s :: ss => (place, s.start) :: gaps text s.stop ss

/-- The segments of a text from a place on. -/
structure Segmentation (text : List Char) (place : Nat) (segments : List Segment) : Prop where
  reads : ∀ s ∈ segments, s.Reads text
  later : ∀ s ∈ segments, place ≤ s.start
  ordered : segments.Pairwise fun s s' => s.stop ≤ s'.start
  between : ∀ gap ∈ gaps text place segments,
    Skipped (text.drop gap.2) (text.extract gap.1 gap.2)
  /-- A string that is never closed is the last segment. -/
  unclosed : ∀ s ∈ segments, ∀ line, s.item = .error (.unterminatedString line) →
    segments.getLast? = some s
  /-- The words of the language are told from names by their spelling. -/
  words : ∀ s ∈ segments, ∀ t, s.item = .ok t → ∀ word : Keyword,
    t.kind = .keyword word ↔ t.lexeme = word.spelling

variable {text : List Char} {place : Nat} {segments : List Segment}

theorem lineAt_add (text : List Char) (place extent : Nat) :
    lineAt text (place + extent) =
      lineAt text place + ((text.drop place).take extent).count '\n' := by
  rw [lineAt, lineAt, List.take_add, List.count_append, Nat.add_assoc]

namespace Segment.Reads

variable {s : Segment}

theorem start_lt_stop (h : s.Reads text) : s.start < s.stop := by
  cases h with
  | token proper _ _ _ => exact proper
  | unexpected _ _ _ _ => exact Nat.lt_succ_self _
  | @unterminated start rest here _ _ =>
      have length := congrArg List.length here
      rw [List.length_drop, List.length_cons] at length
      dsimp only
      omega

theorem stop_le_length (h : s.Reads text) : s.stop ≤ text.length := by
  cases h with
  | token _ inside _ _ => exact inside
  | unexpected here _ _ _ => exact (List.getElem?_eq_some_iff.1 here).1
  | unterminated _ _ _ => exact Nat.le_refl _

/-- A word is told from a name by its spelling. -/
theorem word (h : s.Reads text) {t : Token} (ok : s.item = .ok t) (word : Keyword) :
    t.kind = .keyword word ↔ t.lexeme = word.spelling := by
  cases h with
  | token _ _ longest _ =>
      cases ok
      exact longest.forms.keyword_iff word
  | unexpected _ _ _ _ => cases ok
  | unterminated _ _ _ => cases ok

theorem stop_of_unterminated (h : s.Reads text) {line : Nat}
    (item : s.item = .error (.unterminatedString line)) : s.stop = text.length := by
  cases h with
  | token _ _ _ _ => cases item
  | unexpected _ _ _ _ => cases item
  | unterminated _ _ _ => rfl

end Segment.Reads

/-! ### One piece after the other -/

theorem extract_append_extract {start middle stop : Nat} (le : start ≤ middle)
    (le' : middle ≤ stop) :
    text.extract start middle ++ text.extract middle stop = text.extract start stop := by
  obtain ⟨m, rfl⟩ := Nat.exists_eq_add_of_le le
  obtain ⟨n, rfl⟩ := Nat.exists_eq_add_of_le le'
  rw [List.extract_eq_take_drop, List.extract_eq_take_drop, List.extract_eq_take_drop,
    Nat.add_sub_cancel_left, Nat.add_sub_cancel_left, Nat.add_assoc, Nat.add_sub_cancel_left,
    List.take_add, List.drop_drop]

theorem extract_append_drop (text : List Char) {start stop : Nat} (le : start ≤ stop) :
    text.extract start stop ++ text.drop stop = text.drop start := by
  obtain ⟨n, rfl⟩ := Nat.exists_eq_add_of_le le
  rw [List.extract_eq_take_drop, Nat.add_sub_cancel_left, ← List.drop_drop,
    List.take_append_drop]

namespace Segmentation

theorem nil (done : text.drop place = []) : Segmentation text place [] where
  reads _ h := by cases h
  later _ h := by cases h
  ordered := .nil
  between gap h := by
    cases List.mem_singleton.1 h
    have nothing : text.extract place text.length = [] := by
      rw [List.extract_eq_take_drop, done, List.take_nil]
    rw [nothing]
    exact .nil
  unclosed _ h := by cases h
  words _ h := by cases h

/-- The first gap is longer when there is something to be passed over before it. -/
theorem skip {stop : Nat} (h : Segmentation text stop segments) (le : place ≤ stop)
    (inside : stop ≤ text.length)
    (longer : ∀ gap behind, gap ++ behind = text.drop stop → Skipped behind gap →
      Skipped behind (text.extract place stop ++ gap)) : Segmentation text place segments where
  reads := h.reads
  later s hs := le.trans (h.later s hs)
  ordered := h.ordered
  between := by
    have first {x : Nat} (le' : stop ≤ x) (skipped : Skipped (text.drop x) (text.extract stop x)) :
        Skipped (text.drop x) (text.extract place x) := by
      rw [← extract_append_extract le le']
      exact longer _ _ (extract_append_drop text le') skipped
    have between := h.between
    cases segments with
    | nil =>
        rw [gaps, List.forall_mem_singleton] at between ⊢
        exact first inside between
    | cons s ss =>
        rw [gaps, List.forall_mem_cons] at between ⊢
        exact ⟨first (h.later s List.mem_cons_self) between.1, between.2⟩
  unclosed := h.unclosed
  words := h.words

theorem cons {s : Segment} (h : Segmentation text s.stop segments) (reads : s.Reads text) :
    Segmentation text s.start (s :: segments) where
  reads := List.forall_mem_cons.2 ⟨reads, h.reads⟩
  later := List.forall_mem_cons.2 ⟨Nat.le_refl _, fun s' hs =>
    reads.start_lt_stop.le.trans (h.later s' hs)⟩
  ordered := List.pairwise_cons.2 ⟨h.later, h.ordered⟩
  between := by
    refine List.forall_mem_cons.2 ⟨?_, h.between⟩
    have nothing : text.extract s.start s.start = [] := by simp [List.extract_eq_take_drop]
    rw [nothing]
    exact .nil
  unclosed := by
    refine List.forall_mem_cons.2 ⟨fun line item => ?_, fun s' hs line item => ?_⟩
    · have stop := reads.stop_of_unterminated item
      cases segments with
      | nil => rfl
      | cons s' ss =>
          have reads' := h.reads s' List.mem_cons_self
          have after := h.later s' List.mem_cons_self
          have proper := reads'.start_lt_stop
          have inside := reads'.stop_le_length
          omega
    · rw [List.getLast?_cons, h.unclosed s' hs line item]
      rfl
  words := List.forall_mem_cons.2 ⟨fun t ok => reads.word ok, h.words⟩

end Segmentation

structure PieceAt (text : List Char) (place : Nat) (p : Piece) (stop : Nat) : Prop where
  proper : place < stop
  inside : stop ≤ text.length
  lexeme : text.extract place stop = p.text
  behind : p.text ++ text.drop stop = text.drop place
  line : lineAt text stop = lineAt text place + p.newlines
  pieces : pieces (text.drop place) = p :: pieces (text.drop stop)

theorem FirstPiece.fits {c : Char} {cs : List Char} {reading : Reading} {extent : Nat}
    (h : FirstPiece c cs (reading, extent)) : extent ≤ cs.length := by
  cases h with
  | blank _ => exact Nat.zero_le _
  | comment _ slash =>
      rw [slash]
      exact Nat.succ_le_succ (length_takeWhile_le _ _)
  | token _ _ fits => exact fits
  | unexpected _ _ _ => exact Nat.zero_le _
  | unterminated _ _ => exact Nat.le_refl _

/-- A text that does not end at a place has a first piece there. -/
theorem exists_pieceAt {c : Char} {cs : List Char} (rest : text.drop place = c :: cs) :
    ∃ reading extent, FirstPiece c cs (reading, extent) ∧
      PieceAt text place ⟨reading, c :: cs.take extent⟩ (place + (extent + 1)) := by
  obtain ⟨⟨reading, extent⟩, munched⟩ : ∃ piece, munch c cs = piece := ⟨_, rfl⟩
  have first := firstPiece_munch c cs
  rw [munched] at first
  have fits := first.fits
  refine ⟨reading, extent, first, ?_⟩
  have length := congrArg List.length rest
  rw [List.length_drop, List.length_cons] at length
  have behind : text.drop (place + (extent + 1)) = cs.drop extent := by
    rw [← List.drop_drop, rest, List.drop_succ_cons]
  have lexeme : (text.drop place).take (extent + 1) = c :: cs.take extent := by
    rw [rest, List.take_succ_cons]
  refine ⟨by omega, by omega, ?_, ?_, ?_, ?_⟩
  · rw [List.extract_eq_take_drop, Nat.add_sub_cancel_left, lexeme]
  · rw [behind, rest, List.cons_append, List.take_append_drop]
  · rw [lineAt_add, lexeme]
    rfl
  · rw [rest, pieces_cons, munched, behind]

/-- A comment goes on to the end of its line. -/
theorem Skipped.comment_takeWhile {after gap behind : List Char}
    (whole : after.takeWhile (· ≠ '\n') ++ (gap ++ behind) = after)
    (skipped : Skipped behind gap) :
    Skipped behind ('/' :: '/' :: (after.takeWhile (· ≠ '\n') ++ gap)) := by
  refine .comment (fun line => ?_) ?_ skipped
  · simpa using List.mem_takeWhile_imp line
  · have tail : gap ++ behind = after.dropWhile (· ≠ '\n') :=
      List.append_cancel_left (whole.trans List.takeWhile_append_dropWhile.symm)
    have stops := List.head?_dropWhile_not (· ≠ '\n') after
    rw [← tail] at stops
    cases ends : (gap ++ behind).head? with
    | none => exact Or.inl (List.head?_eq_none_iff.1 ends)
    | some c =>
        rw [ends] at stops
        exact Or.inr (congrArg some (by simpa using stops))

/-- A token does not end with a line end, although a string can have one inside. -/
theorem Forms.getLast?_ne {kind : Kind} {text : List Char} (h : Forms kind text) :
    text.getLast? ≠ some '\n' := by
  intro last
  have mem := List.mem_of_getLast? last
  cases h with
  | symbol mark =>
      revert mem
      cases mark <;> decide
  | keyword word =>
      revert mem
      cases word <;> decide
  | string inside =>
      rw [← List.cons_append, List.getLast?_concat] at last
      cases last
  | whole some all => exact absurd (all _ mem) (by decide)
  | decimal some all some' all' =>
      rcases List.mem_append.1 mem with mem | mem
      · exact absurd (all _ mem) (by decide)
      · rcases List.mem_cons.1 mem with same | mem
        · cases same
        · exact absurd (all' _ mem) (by decide)
  | identifier start rest free =>
      rcases List.mem_cons.1 mem with rfl | mem
      · exact absurd start (by decide)
      · exact absurd (rest _ mem) (by decide)

/-- The last character of a part of the text is on the line that the part ends on, unless it is a
line end. -/
theorem lineAt_pred {start stop : Nat} (proper : start < stop) (inside : stop ≤ text.length)
    (last : (text.extract start stop).getLast? ≠ some '\n') :
    lineAt text (stop - 1) = lineAt text stop := by
  obtain ⟨n, rfl⟩ := Nat.exists_eq_add_of_lt proper
  have found : (text.extract start (start + n + 1)).getLast? = text[start + n]? := by
    rw [List.extract_eq_take_drop, Nat.add_assoc, Nat.add_sub_cancel_left,
      List.getLast?_eq_getElem?, List.length_take, List.length_drop, Nat.min_eq_left (by omega),
      Nat.add_sub_cancel, List.getElem?_take_of_lt (Nat.lt_succ_self n), List.getElem?_drop]
  obtain ⟨c, here⟩ : ∃ c, text[start + n]? = some c := ⟨_, List.getElem?_eq_getElem (by omega)⟩
  rw [found, here] at last
  have one : (text.drop (start + n)).take 1 = [c] := by
    rw [List.take_one, List.head?_drop, here]
    rfl
  rw [lineAt_add text (start + n) 1, one, Nat.add_sub_cancel,
    List.count_eq_zero_of_not_mem (by simpa using fun same => last (congrArg some same.symm)),
    Nat.add_zero]

/-- A first piece is passed over or makes a segment. -/
theorem PieceAt.yields {c : Char} {cs : List Char} (rest : text.drop place = c :: cs)
    {reading : Reading} {extent : Nat} (first : FirstPiece c cs (reading, extent))
    (here : PieceAt text place ⟨reading, c :: cs.take extent⟩ (place + (extent + 1))) :
    let stop := place + (extent + 1)
    (Piece.item? ⟨reading, c :: cs.take extent⟩ (lineAt text place) (lineAt text stop) = none ∧
      ∀ gap behind, gap ++ behind = text.drop stop → Skipped behind gap →
        Skipped behind (text.extract place stop ++ gap)) ∨
    ∃ item, Piece.item? ⟨reading, c :: cs.take extent⟩ (lineAt text place) (lineAt text stop) =
        some item ∧ Segment.Reads text ⟨place, stop, item⟩ := by
  intro stop
  have lexeme : text.extract place stop = c :: cs.take extent := here.lexeme
  have behind_eq : c :: cs.take extent ++ text.drop stop = c :: cs := by
    rw [← rest]
    exact here.behind
  cases first with
  | blank blank =>
      refine Or.inl ⟨rfl, fun gap behind _ skipped => ?_⟩
      rw [lexeme]
      exact .blank blank skipped
  | @comment after slash slash' =>
      refine Or.inl ⟨rfl, fun gap behind whole skipped => ?_⟩
      subst slash slash'
      have taken := List.prefix_iff_eq_take.1 (List.takeWhile_prefix (l := after) (· ≠ '\n'))
      rw [List.take_succ_cons, ← taken] at lexeme behind_eq
      rw [lexeme]
      refine .comment_takeWhile ?_ skipped
      rw [whole]
      exact (List.cons.inj (List.cons.inj behind_eq).2).2
  | token code longest fits =>
      refine Or.inr ⟨_, rfl, ?_⟩
      rw [← lexeme, ← rest] at longest
      rw [← rest] at code
      have reads := Segment.Reads.token here.proper here.inside longest code
      rw [lineAt_pred here.proper here.inside longest.forms.getLast?_ne, lexeme] at reads
      exact reads
  | unexpected visible quote none =>
      refine Or.inr ⟨_, rfl, ?_⟩
      rw [← rest] at none
      have here' : text[place]? = some c := by
        rw [← List.head?_drop, rest]
        rfl
      exact .unexpected here' visible quote none
  | unterminated quote unclosed =>
      refine Or.inr ⟨_, rfl, ?_⟩
      subst quote
      have none := noToken_of_quote unclosed
      rw [← rest] at none
      have stop_eq : stop = text.length := by
        have inside := here.inside
        have done : text.drop stop = [] := by simpa using behind_eq
        exact Nat.le_antisymm inside (List.drop_eq_nil_iff.1 done)
      rw [stop_eq]
      exact .unterminated rest unclosed none

/-- The results of the pieces of a text have a segmentation. -/
theorem exists_segmentation (text : List Char) (place : Nat) :
    ∃ segments, Segmentation text place segments ∧
      segments.map Segment.item = itemsFrom (lineAt text place) (pieces (text.drop place)) := by
  cases rest : text.drop place with
  | nil =>
      refine ⟨[], .nil rest, ?_⟩
      rw [pieces_nil]
      rfl
  | cons c cs =>
      obtain ⟨reading, extent, first, here⟩ := exists_pieceAt rest
      have proper := here.proper
      have inside := here.inside
      obtain ⟨segments, segmentation, items⟩ := exists_segmentation text (place + (extent + 1))
      rw [← rest, here.pieces, itemsFrom, ← here.line, ← items]
      rcases here.yields rest first with ⟨nothing, longer⟩ | ⟨item, found, reads⟩
      · refine ⟨segments, segmentation.skip proper.le inside longer, ?_⟩
        rw [nothing]
        rfl
      · refine ⟨⟨place, _, item⟩ :: segments, segmentation.cons reads, ?_⟩
        rw [found]
        rfl
termination_by text.length - place
decreasing_by omega

/-! ### The segments are the only ones -/

/-- What the first segment or the first gap of a segmentation tells. -/
theorem Segmentation.first_gap (h : Segmentation text place segments)
    (more : place < text.length) :
    ∃ x, place ≤ x ∧ x ≤ text.length ∧ Skipped (text.drop x) (text.extract place x) ∧
      (∀ stop, stop ≤ x → Skipped (text.drop x) (text.extract stop x) →
        Segmentation text stop segments) ∧
      (x = place → ∃ s ss, segments = s :: ss ∧ s.start = place ∧ s.Reads text ∧
        Segmentation text s.stop ss) := by
  have between := h.between
  cases segments with
  | nil =>
      rw [gaps, List.forall_mem_singleton] at between
      refine ⟨text.length, more.le, Nat.le_refl _, between, fun stop _ skipped => ?_, ?_⟩
      · exact { h with
          later := fun s hs => by cases hs
          between := List.forall_mem_singleton.2 skipped }
      · intro same
        exact absurd same more.ne'
  | cons s ss =>
      rw [gaps, List.forall_mem_cons] at between
      have reads := h.reads s List.mem_cons_self
      have ordered := List.pairwise_cons.1 h.ordered
      have proper := reads.start_lt_stop
      have inside := reads.stop_le_length
      have behind : Segmentation text s.stop ss :=
        { reads := (List.forall_mem_cons.1 h.reads).2
          later := ordered.1
          ordered := ordered.2
          between := between.2
          unclosed := ?_
          words := (List.forall_mem_cons.1 h.words).2 }
      · refine ⟨s.start, h.later s List.mem_cons_self, by omega, between.1,
          fun stop le skipped => ?_, fun same => ⟨s, ss, rfl, same, reads, behind⟩⟩
        exact { h with
          later := List.forall_mem_cons.2 ⟨le, fun s' hs => by
            have after := ordered.1 s' hs
            omega⟩
          between := List.forall_mem_cons.2 ⟨skipped, between.2⟩ }
      · intro s' hs line item
        have last := h.unclosed s' (List.mem_cons_of_mem _ hs) line item
        cases ss with
        | nil => cases hs
        | cons s'' ss => exact last

/-- A segmentation starts with a segment, or with something that is passed over. -/
theorem Segmentation.first (h : Segmentation text place segments) {c : Char} {cs : List Char}
    (rest : text.drop place = c :: cs) :
    (∃ s ss, segments = s :: ss ∧ s.start = place ∧ s.Reads text ∧ Segmentation text s.stop ss) ∨
    (isBlank c ∧ Segmentation text (place + (0 + 1)) segments) ∨
    (c = '/' ∧ ∃ body behind, cs = '/' :: (body ++ behind) ∧ '\n' ∉ body ∧
      (behind = [] ∨ behind.head? = some '\n') ∧
      Segmentation text (place + (body.length + 1 + 1)) segments) := by
  have more : place < text.length := by
    have length := congrArg List.length rest
    rw [List.length_drop, List.length_cons] at length
    omega
  obtain ⟨x, le, le', skipped, after, segment⟩ := h.first_gap more
  have whole := extract_append_drop text le
  have later (n : Nat) : text.extract (place + n) x = (text.extract place x).drop n := by
    rw [List.extract_eq_take_drop, List.extract_eq_take_drop, List.drop_take, List.drop_drop,
      Nat.sub_sub]
  have length : (text.extract place x).length = x - place := by
    rw [List.extract_eq_take_drop, List.length_take, List.length_drop]
    omega
  rw [rest] at whole
  generalize text.extract place x = gap at skipped whole later length
  cases skipped with
  | nil =>
      rw [List.length_nil] at length
      exact Or.inl (segment (by omega))
  | blank blank skipped =>
      obtain ⟨rfl, -⟩ := List.cons.inj whole
      rw [List.length_cons] at length
      exact Or.inr (Or.inl ⟨blank, after _ (by omega) (by rw [later]; exact skipped)⟩)
  | @comment body gap line stops skipped =>
      rw [List.cons_append, List.cons_append, List.append_assoc] at whole
      obtain ⟨rfl, rfl⟩ := List.cons.inj whole
      rw [List.length_cons, List.length_cons, List.length_append] at length
      refine Or.inr (Or.inr ⟨rfl, body, _, rfl, line, stops, after _ (by omega) ?_⟩)
      rw [later, List.drop_succ_cons, List.drop_succ_cons, List.drop_left]
      exact skipped

/-- At most one result stands for a part of the text that starts at a place. -/
theorem Segment.Reads.eq {s s' : Segment} (h : s.Reads text) (h' : s'.Reads text)
    (same : s.start = s'.start) : s = s' := by
  cases h with
  | @token start stop kind proper inside longest code =>
      cases h' with
      | @token start' stop' kind' proper' inside' longest' code' =>
          obtain rfl : start = start' := same
          obtain ⟨lexeme, rfl⟩ := longest.unique longest'
          have length := congrArg List.length lexeme
          simp only [List.extract_eq_take_drop, List.length_take, List.length_drop] at length
          obtain rfl : stop = stop' := by omega
          rfl
      | unexpected here visible quote none =>
          obtain rfl : start = _ := same
          exact absurd longest.starts (none _ _ longest.forms)
      | unterminated here unclosed none =>
          obtain rfl : start = _ := same
          exact absurd longest.starts (none _ _ longest.forms)
  | @unexpected start c here visible quote none =>
      cases h' with
      | token proper' inside' longest' code' =>
          obtain rfl : start = _ := same
          exact absurd longest'.starts (none _ _ longest'.forms)
      | unexpected here' _ _ _ =>
          obtain rfl : start = _ := same
          obtain rfl := Option.some.inj (here.symm.trans here')
          rfl
      | unterminated here' _ _ =>
          obtain rfl : start = _ := same
          rw [← List.head?_drop, here'] at here
          exact absurd (Option.some.inj here).symm quote
  | @unterminated start rest here unclosed none =>
      cases h' with
      | token proper' inside' longest' code' =>
          obtain rfl : start = _ := same
          exact absurd longest'.starts (none _ _ longest'.forms)
      | unexpected here' _ quote _ =>
          obtain rfl : start = _ := same
          rw [← List.head?_drop, here] at here'
          exact absurd (Option.some.inj here').symm quote
      | unterminated _ _ _ =>
          obtain rfl : start = _ := same
          rfl

/-- No segment starts with what is passed over. -/
theorem Segment.Reads.visible {s : Segment} (h : s.Reads text) {c : Char} {cs : List Char}
    (rest : text.drop s.start = c :: cs) : ¬ isBlank c ∧ ¬ ['/', '/'] <+: c :: cs := by
  cases h with
  | token proper inside longest code =>
      dsimp only at rest
      rw [rest] at longest code
      refine ⟨?_, code⟩
      obtain ⟨d, ds, lexeme⟩ := List.exists_cons_of_ne_nil longest.forms.ne_nil
      have forms := longest.forms
      have starts := longest.starts
      rw [lexeme] at forms starts
      rw [← (List.cons_prefix_cons.1 starts).1, forms.not_isBlank]
      decide
  | unexpected here visible quote none =>
      dsimp only at rest
      rw [rest] at none
      rw [← List.head?_drop, rest] at here
      obtain rfl := Option.some.inj here
      refine ⟨visible, fun slashes => ?_⟩
      exact none _ _ (.symbol .slash) ((List.prefix_append ['/'] ['/']).trans slashes)
  | unterminated here unclosed none =>
      obtain ⟨rfl, rfl⟩ := List.cons.inj (rest.symm.trans here)
      refine ⟨by decide, fun slashes => ?_⟩
      cases (List.cons_prefix_cons.1 slashes).1

namespace FirstPiece

variable {c : Char} {cs : List Char} {reading : Reading} {extent : Nat}

theorem of_blank (blank : isBlank c) (h : FirstPiece c cs (reading, extent)) :
    reading = .blank ∧ extent = 0 := by
  cases h with
  | blank _ => exact ⟨rfl, rfl⟩
  | comment slash _ => exact absurd blank (by rw [slash]; decide)
  | token _ longest _ => exact absurd blank (by rw [longest.forms.not_isBlank]; decide)
  | unexpected visible _ _ => exact absurd blank visible
  | unterminated quote _ => exact absurd blank (by rw [quote]; decide)

theorem of_comment (h : FirstPiece '/' ('/' :: cs) (reading, extent)) :
    reading = .comment ∧ extent = (cs.takeWhile (· ≠ '\n')).length + 1 := by
  cases h with
  | blank blank => exact absurd blank (by decide)
  | comment _ rest =>
      obtain ⟨-, rfl⟩ := List.cons.inj rest
      exact ⟨rfl, rfl⟩
  | token code _ _ => exact absurd ⟨cs, rfl⟩ code
  | unexpected _ _ none => exact absurd ⟨'/' :: cs, rfl⟩ (none _ _ (.symbol .slash))
  | unterminated quote _ => exact absurd quote (by decide)

end FirstPiece

/-- A comment ends where its line does. -/
theorem takeWhile_of_comment {body behind : List Char} (line : '\n' ∉ body)
    (stops : behind = [] ∨ behind.head? = some '\n') :
    (body ++ behind).takeWhile (· ≠ '\n') = body := by
  have all : ∀ c ∈ body, decide (c ≠ '\n') := by
    intro c hc
    exact decide_eq_true fun same => line (same ▸ hc)
  rw [List.takeWhile_append_of_pos all, List.append_right_eq_self]
  rcases stops with rfl | stops
  · rfl
  · obtain ⟨rest, rfl⟩ := List.head?_eq_some_iff.1 stops
    rfl

/-- The results of a scan are those of any segmentation. -/
theorem Segmentation.items {place : Nat} {segments : List Segment}
    (h : Segmentation text place segments) :
    segments.map Segment.item = itemsFrom (lineAt text place) (pieces (text.drop place)) := by
  cases rest : text.drop place with
  | nil =>
      cases segments with
      | nil =>
          rw [pieces_nil]
          rfl
      | cons s ss =>
          have reads := h.reads s List.mem_cons_self
          have proper := reads.start_lt_stop
          have inside := reads.stop_le_length
          have later := h.later s List.mem_cons_self
          have done := List.drop_eq_nil_iff.1 rest
          omega
  | cons c cs =>
      obtain ⟨reading, extent, first, here⟩ := exists_pieceAt rest
      have proper := here.proper
      have inside := here.inside
      rw [← rest, here.pieces, itemsFrom, ← here.line]
      rcases h.first rest with ⟨s, ss, rfl, start, reads, behind⟩ | ⟨blank, behind⟩ |
        ⟨rfl, body, after, rfl, line, stops, behind⟩
      · have visible := reads.visible (start ▸ rest)
        rcases here.yields rest first with ⟨nothing, -⟩ | ⟨item, found, reads'⟩
        · cases first with
          | blank blank => exact absurd blank visible.1
          | comment slash slash' =>
              subst slash slash'
              exact absurd ⟨_, rfl⟩ visible.2
          | _ => cases nothing
        · obtain rfl := reads.eq reads' start
          rw [found, List.map_cons, items behind]
          rfl
      · obtain ⟨rfl, rfl⟩ := first.of_blank blank
        rw [items behind]
        rfl
      · obtain ⟨rfl, rfl⟩ := first.of_comment
        rw [takeWhile_of_comment line stops, items behind]
        rfl
termination_by text.length - place
decreasing_by all_goals omega

/-! ### The results of a scan -/

theorem lineAfter_pieces (text : List Char) :
    lineAfter 1 (pieces text) = lineAt text text.length := by
  rw [lineAfter_eq, flatMap_text_pieces, lineAt, List.take_length]

/-- A scan cuts a text into tokens, errors, and what is passed over, and its results are what the
text is cut into.  A token is the longest one that starts there, on the line of its last character;
an error is reported only where no token starts.  After the last result comes the end of file, on
the last line. -/
theorem scan_eq_iff_segmentation (source : String) (items : List Item) :
    scan source = items ↔
      ∃ segments, Segmentation source.toList 0 segments ∧
        items = segments.map Segment.item ++
          [.ok (endOfFile (lineAt source.toList source.toList.length))] := by
  have first : lineAt source.toList 0 = 1 := rfl
  rw [scan_eq, lineAfter_pieces]
  constructor
  · rintro rfl
    obtain ⟨segments, segmentation, same⟩ := exists_segmentation source.toList 0
    refine ⟨segments, segmentation, ?_⟩
    rw [same, first, List.drop_zero]
  · rintro ⟨segments, segmentation, rfl⟩
    rw [segmentation.items, first, List.drop_zero]

end Lox
