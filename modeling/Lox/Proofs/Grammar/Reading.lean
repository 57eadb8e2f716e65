import Mathlib.Data.List.Infix
import Lox.Bind
import Lox.Grammar.Statement
import Lox.Proofs.Program.Node

/-!
# What a rule reads

A rule of the grammar reads tokens from the front, hands out sites and notes errors: `Passed` says
that it does nothing else, whether it fails or not.  `Parser.Reads P rule Q` says that a rule that
starts in a state with `P` passes to one with `Q` of its result, unless it fails.

`Built start nodes s` says of a state `s` that the nodes were built from what was read since
`start`:  their tokens were there to be read, each site was handed out for one of them only, and
they are well formed.  It also keeps in mind that the token after all others can be told from those
that are read.
-/

namespace Lox

/-- How a rule may change the state. -/
structure Passed (s s' : ParseState) : Prop where
  rest : s'.rest <:+ s.rest
  eof : s'.eof = s.eof
  nextSite : s.nextSite ≤ s'.nextSite
  errors : s.errors.toList <+: s'.errors.toList

namespace Passed

theorem refl (s : ParseState) : Passed s s :=
  ⟨List.suffix_refl _, rfl, Nat.le_refl _, List.prefix_refl _⟩

theorem trans {s s' s'' : ParseState} (h : Passed s s') (h' : Passed s' s'') : Passed s s'' :=
  ⟨h'.rest.trans h.rest, h'.eof.trans h.eof, h.nextSite.trans h'.nextSite,
    h.errors.trans h'.errors⟩

theorem mem {s s' : ParseState} (h : Passed s s') {t : Token} (ht : t ∈ s'.rest) : t ∈ s.rest :=
  h.rest.subset ht

/-- Reading tokens. -/
theorem read {s : ParseState} {rest : List Token} (h : rest <:+ s.rest) :
    Passed s { s with rest } :=
  ⟨h, rfl, Nat.le_refl _, List.prefix_refl _⟩

/-- Noting an error. -/
theorem note (s : ParseState) (e : GrammarError) :
    Passed s { s with errors := s.errors.push e } :=
  ⟨List.suffix_refl _, rfl, Nat.le_refl _, by simp⟩

end Passed

/-- The nodes were built from what was read since the start. -/
structure Built (start : ParseState) (nodes : List Node) (s : ParseState) : Prop where
  eof : start.eof.terminal = .eof
  passed : Passed start s
  nodup : (sitesOf nodes).Nodup
  sites : ∀ site ∈ sitesOf nodes, start.nextSite ≤ site ∧ site < s.nextSite
  tokens : ∀ n ∈ nodes, ∀ t ∈ n.tokens, t ∈ start.rest
  formed : ∀ n ∈ nodes, n.WellFormed

namespace Built

variable {start s s' : ParseState} {nodes nodes' : List Node}

theorem nil {s : ParseState} (h : s.eof.terminal = .eof) : Built s [] s :=
  ⟨h, .refl s, List.nodup_nil, by simp, by simp, by simp⟩

theorem pass (h : Built start nodes s) (p : Passed s s') : Built start nodes s' :=
  ⟨h.eof, h.passed.trans p, h.nodup,
    fun site hs => ⟨(h.sites site hs).1, (h.sites site hs).2.trans_le p.nextSite⟩, h.tokens,
    h.formed⟩

theorem sublist (h : Built start nodes s) (sub : nodes'.Sublist nodes) : Built start nodes' s :=
  ⟨h.eof, h.passed, h.nodup.sublist (sub.filterMap _),
    fun site hs => h.sites site ((sub.filterMap _).subset hs),
    fun n hn => h.tokens n (sub.subset hn), fun n hn => h.formed n (sub.subset hn)⟩

theorem perm (h : Built start nodes s) (p : nodes'.Perm nodes) : Built start nodes' s :=
  ⟨h.eof, h.passed, (p.filterMap _).nodup_iff.2 h.nodup,
    fun site hs => h.sites site ((p.filterMap _).subset hs),
    fun n hn => h.tokens n (p.subset hn), fun n hn => h.formed n (p.subset hn)⟩

/-- A node that refers to no name needs no site. -/
theorem node (h : Built start nodes s) (n : Node) (refers : n.reference? = none)
    (tokens : ∀ t ∈ n.tokens, t ∈ start.rest) (formed : n.WellFormed) :
    Built start (nodes ++ [n]) s := by
  have none : sitesOf [n] = [] := by simp [sitesOf, refers]
  refine ⟨h.eof, h.passed, ?_, ?_, ?_, ?_⟩
  · simpa [none] using h.nodup
  · simpa [none] using h.sites
  · simpa [or_imp, forall_and] using ⟨h.tokens, tokens⟩
  · simpa [or_imp, forall_and] using ⟨h.formed, formed⟩

/-- A node that refers to a name takes the next site. -/
theorem reference (h : Built start nodes s) (n : Node) {name : Token}
    (refers : n.reference? = some (s.nextSite, name)) (tokens : ∀ t ∈ n.tokens, t ∈ start.rest)
    (formed : n.WellFormed) :
    Built start (nodes ++ [n]) { s with nextSite := s.nextSite + 1 } := by
  have one : sitesOf [n] = [s.nextSite] := by simp [sitesOf, refers]
  have fresh : s.nextSite ∉ sitesOf nodes := fun hs => Nat.lt_irrefl _ (h.sites _ hs).2
  refine ⟨h.eof, h.passed.trans ⟨List.suffix_refl _, rfl, Nat.le_succ _, List.prefix_refl _⟩,
    ?_, ?_, ?_, ?_⟩
  · rw [sitesOf_append, one, List.nodup_append]
    refine ⟨h.nodup, by simp, ?_⟩
    rintro site hs _ hn rfl
    exact fresh (List.mem_singleton.1 hn ▸ hs)
  · intro site hs
    rw [sitesOf_append, one, List.mem_append] at hs
    rcases hs with hs | hs
    · exact ⟨(h.sites site hs).1, Nat.lt_succ_of_lt (h.sites site hs).2⟩
    · obtain rfl := List.mem_singleton.1 hs
      exact ⟨h.passed.nextSite, Nat.lt_succ_self _⟩
  · simpa [or_imp, forall_and] using ⟨h.tokens, tokens⟩
  · simpa [or_imp, forall_and] using ⟨h.formed, formed⟩

end Built

namespace Parser

/-- From a state with `P`, the rule passes to one with `Q` of its result, unless it fails. -/
def Reads (P : ParseState → Prop) (x : Parser α) (Q : α → ParseState → Prop) : Prop :=
  ∀ s, P s → match x s with
    | .ok a s' => Passed s s' ∧ Q a s'
    | .error _ s' => Passed s s'

namespace Reads

variable {P : ParseState → Prop}

theorem pure {Q : α → ParseState → Prop} (a : α) (h : ∀ s, P s → Q a s) :
    Reads P (pure a) Q :=
  fun s hs => ⟨.refl s, h s hs⟩

theorem bind {x : Parser α} {f : α → Parser β} {Q : α → ParseState → Prop}
    {T : β → ParseState → Prop} (hx : Reads P x Q) (hf : ∀ a, Reads (Q a) (f a) T) :
    Reads P (x >>= f) T := by
  intro s hs
  have first := hx s hs
  cases hxs : x s with
  | error e s' =>
      rw [hxs] at first
      rw [bind_of_error hxs]
      exact first
  | ok a s' =>
      rw [hxs] at first
      have second := hf a s' first.2
      rw [bind_of_ok hxs]
      cases hfs : f a s' with
      | error e s'' =>
          rw [hfs] at second
          exact first.1.trans second
      | ok b s'' =>
          rw [hfs] at second
          exact ⟨first.1.trans second.1, second.2⟩

theorem imp {x : Parser α} {Q T : α → ParseState → Prop} (h : Reads P x Q)
    (hQT : ∀ a s, Q a s → T a s) : Reads P x T := by
  intro s hs
  have all := h s hs
  cases hx : x s with
  | error e s' =>
      rw [hx] at all
      exact all
  | ok a s' =>
      rw [hx] at all
      exact ⟨all.1, hQT a s' all.2⟩

theorem map {x : Parser α} {Q : α → ParseState → Prop} {T : β → ParseState → Prop} (f : α → β)
    (h : Reads P x Q) (hQT : ∀ a s, Q a s → T (f a) s) : Reads P (f <$> x) T := by
  rw [← bind_pure_comp]
  exact h.bind fun a => .pure (f a) (hQT a)

/-- Facts that do not depend on the state. -/
theorem of_fact {φ : Prop} {x : Parser α} {Q : α → ParseState → Prop} (h : φ → Reads P x Q) :
    Reads (fun s => φ ∧ P s) x Q :=
  fun s hs => h hs.1 s hs.2

end Reads

variable {start : ParseState} {nodes : List Node}

theorem reads_fail (fault : GrammarFault) {P : ParseState → Prop} {Q : α → ParseState → Prop} :
    Reads P (fail fault : Parser α) Q :=
  fun s _ => Passed.refl s

theorem reads_note (fault : GrammarFault) (culprit : Token) :
    Reads (Built start nodes) (note fault culprit) fun _ => Built start nodes :=
  fun s hs => ⟨.note s _, hs.pass (.note s _)⟩

theorem reads_peek : Reads (Built start nodes) peek fun t s =>
    (t.terminal ≠ .eof → t ∈ start.rest) ∧ Built start nodes s := by
  refine fun s hs => ⟨.refl s, fun ht => ?_, hs⟩
  cases hrest : s.rest with
  | nil =>
      refine absurd ?_ ht
      rw [hrest, List.headD_nil, hs.passed.eof]
      exact hs.eof
  | cons t rest => exact hs.passed.mem (by simp [hrest])

theorem reads_nextIs (terminals : List Terminal) :
    Reads (Built start nodes) (nextIs terminals) fun _ => Built start nodes :=
  fun s hs => ⟨.refl s, hs⟩

theorem reads_skip : Reads (Built start nodes) skip fun _ => Built start nodes :=
  fun _ hs => ⟨.read (List.tail_suffix _), hs.pass (.read (List.tail_suffix _))⟩

/-- A site is handed out for the node that is built with it. -/
theorem reads_freshSite (g : Site → Node) {name : Token}
    (refers : ∀ site, (g site).reference? = some (site, name))
    (tokens : ∀ site, ∀ t ∈ (g site).tokens, t ∈ start.rest)
    (formed : ∀ site, (g site).WellFormed) :
    Reads (Built start nodes) freshSite fun site => Built start (nodes ++ [g site]) :=
  fun s hs => ⟨⟨List.suffix_refl _, rfl, Nat.le_succ _, List.prefix_refl _⟩,
    hs.reference (g s.nextSite) (refers _) (tokens _) (formed _)⟩

theorem reads_accept? (terminals : List Terminal) :
    Reads (Built start nodes) (accept? terminals) fun o s =>
      (∀ t, o = some t → t ∈ start.rest ∧ t.terminal ∈ terminals) ∧ Built start nodes s := by
  intro s hs
  obtain ⟨t, rest, next, here, read⟩ | ⟨-, declined⟩ := accept?_cases terminals s
  · have passed : Passed s { s with rest } := .read (by simp [next])
    have mem : t ∈ start.rest := hs.passed.mem (by simp [next])
    rw [read]
    refine ⟨passed, fun t' ht => ?_, hs.pass passed⟩
    obtain rfl := Option.some.inj ht
    exact ⟨mem, here⟩
  · rw [declined]
    exact ⟨.refl s, nofun, hs⟩

theorem reads_acceptAll (terminals : List Terminal) :
    Reads (Built start nodes) (acceptAll terminals) fun ts s =>
      (∀ t ∈ ts, t ∈ start.rest) ∧ Built start nodes s := by
  intro s hs
  have passed : Passed s { s with
      rest := s.rest.dropWhile fun t => terminals.contains t.terminal } :=
    .read (List.dropWhile_suffix _)
  exact ⟨passed, fun t ht => hs.passed.mem (List.takeWhile_subset _ ht), hs.pass passed⟩

theorem reads_expect (terminal : Terminal) (fault : GrammarFault) :
    Reads (Built start nodes) (expect terminal fault) fun t s =>
      (t ∈ start.rest ∧ t.terminal = terminal) ∧ Built start nodes s := by
  refine (reads_accept? [terminal]).bind fun o => ?_
  cases o with
  | none => exact reads_fail fault
  | some t =>
      refine .pure t fun s hs => ⟨?_, hs.2⟩
      simpa using hs.1 t rfl

theorem Reads.chain {I : α → ParseState → Prop} {step : α → Parser (Option α)}
    (h : ∀ a, Reads (I a) (step a) fun o s => I (o.getD a) s) (bound : Nat) (a : α) :
    Reads (I a) (chain step bound a) I := by
  induction bound generalizing a with
  | zero => exact .pure a fun _ hs => hs
  | succ bound ih =>
      refine (h a).bind fun o => ?_
      cases o with
      | none => exact .pure a fun _ hs => hs
      | some b => exact ih b

/-- The nodes of what was read are collected in the order of reading. -/
theorem reads_itemsUntil (stop : List Terminal) (bound : Nat) {item : Parser (Option α)}
    (φ : α → Prop) (f : α → List Node)
    (h : ∀ nodes, Reads (Built start nodes) item fun o s =>
      (∀ a, o = some a → φ a) ∧ Built start (nodes ++ o.toList.flatMap f) s) :
    Reads (Built start nodes) (itemsUntil stop bound item) fun as s =>
      (∀ a ∈ as, φ a) ∧ Built start (nodes ++ as.flatMap f) s := by
  refine Reads.bind (Q := fun (as : Array α) s => (∀ a ∈ as.toList, φ a) ∧
    Built start (nodes ++ as.toList.flatMap f) s) (fun s hs => ?_) fun as => .pure _ fun s hs => hs
  refine Reads.chain (I := fun (as : Array α) s => (∀ a ∈ as.toList, φ a) ∧
    Built start (nodes ++ as.toList.flatMap f) s) (fun found => ?_) bound #[] s ?_
  · refine .of_fact fun holds => (reads_nextIs stop).bind fun stops => ?_
    cases stops with
    | true => exact .pure none fun s hs => ⟨holds, hs⟩
    | false =>
        refine (h _).bind fun o => ?_
        cases o with
        | none =>
            refine .pure (some found) fun s hs => ⟨holds, ?_⟩
            simpa using hs.2
        | some a =>
            refine .pure (some (found.push a)) fun s hs => ⟨?_, ?_⟩
            · simpa [or_imp, forall_and] using ⟨by simpa using holds, hs.1 a rfl⟩
            · simpa using hs.2
  · exact ⟨by simp, by simpa using hs⟩

theorem reads_limited (excess : GrammarFault) {item : Parser α} (φ : α → Prop)
    (f : α → List Node)
    (h : ∀ nodes, Reads (Built start nodes) item fun a s =>
      φ a ∧ Built start (nodes ++ f a) s) (found : Array α) :
    Reads (fun s => (∀ a ∈ found.toList, φ a) ∧ Built start (nodes ++ found.toList.flatMap f) s)
      (limited excess item found) fun as s =>
      (∀ a ∈ as.toList, φ a) ∧ Built start (nodes ++ as.toList.flatMap f) s := by
  refine .of_fact fun holds => ?_
  have rest : Reads (Built start (nodes ++ found.toList.flatMap f))
      (do return found.push (← item)) fun (as : Array α) s =>
      (∀ a ∈ as.toList, φ a) ∧ Built start (nodes ++ as.toList.flatMap f) s := by
    refine (h _).bind fun a => .of_fact fun ha => .pure _ fun s hs => ⟨?_, ?_⟩
    · simpa [or_imp, forall_and] using ⟨by simpa using holds, ha⟩
    · simpa using hs
  unfold limited
  split
  · refine Reads.bind (Q := fun _ => Built start (nodes ++ found.toList.flatMap f))
      (fun s hs => ⟨.refl s, hs⟩) fun t => ?_
    exact (reads_note excess t).bind fun _ => rest
  · exact rest

theorem reads_commaList (excess : GrammarFault) (bound : Nat) {item : Parser α} (φ : α → Prop)
    (f : α → List Node)
    (h : ∀ nodes, Reads (Built start nodes) item fun a s =>
      φ a ∧ Built start (nodes ++ f a) s) :
    Reads (Built start nodes) (commaList excess bound item) fun as s =>
      (∀ a ∈ as, φ a) ∧ Built start (nodes ++ as.flatMap f) s := by
  refine (reads_nextIs _).bind fun empty => ?_
  cases empty with
  | true => exact .pure [] fun s hs => ⟨by simp, by simpa using hs⟩
  | false =>
      refine Reads.bind (Q := fun (as : Array α) s => (∀ a ∈ as.toList, φ a) ∧
        Built start (nodes ++ as.toList.flatMap f) s) ?_ fun first => ?_
      · intro s hs
        exact reads_limited excess φ f h #[] s ⟨by simp, by simpa using hs⟩
      · refine (Reads.chain (I := fun (as : Array α) s => (∀ a ∈ as.toList, φ a) ∧
          Built start (nodes ++ as.toList.flatMap f) s) (fun found => ?_) bound first).bind
          fun as => .pure _ fun s hs => hs
        refine .of_fact fun holds => (reads_accept? _).bind fun comma => ?_
        cases comma with
        | none => exact .pure none fun s hs => ⟨holds, hs.2⟩
        | some _ =>
            refine .of_fact fun _ => Reads.bind (Q := fun (as : Array α) s =>
              (∀ a ∈ as.toList, φ a) ∧ Built start (nodes ++ as.toList.flatMap f) s) ?_
              fun as => .pure _ fun s hs => hs
            intro s hs
            exact reads_limited excess φ f h found s ⟨holds, hs⟩

end Parser

end Lox
