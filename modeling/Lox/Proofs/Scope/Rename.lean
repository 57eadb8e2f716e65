import Lox.Proofs.Heap.Renaming
import Lox.Proofs.Program.Rename
import Lox.Proofs.Scope.Settled

/-!
# Analysis of a program with a renamed variable

Where a variable of a program without errors gets a name that occurs nowhere in it, the static
analysis finds the same bindings as before and still no error (`renamed_rebinds`).

The scopes of the renamed program are those of the program, each with its names renamed.  A scope in
which the variable is declared, be it only further on, has the new name in the place of the old one
(`Suits`); every other scope stays as it is.  So the renaming of a scope is settled by what the
scope has at its end, while the marks grow on the way.
-/

namespace Lox

variable {t : NewName}

/-- A node in which the new name does not occur. -/
structure NewName.Avoids (t : NewName) (n : Node) : Prop where
  sound : n.Sound
  fresh : ∀ token ∈ n.tokens, token.lexeme ≠ t.new

/-- The names of a scope, of which only the old name may be that of the renamed variable. -/
structure NewName.Sane (t : NewName) (marks : Table Bool) : Prop where
  fresh : ∀ name marked, marks.get? name = some marked → name ≠ t.new
  old : ∀ name, marks.get? name = some true → name = t.old ∧ Ordinary name

/-- Marks for the names of a scope. -/
structure NewName.Tells (t : NewName) (scope : Scope) (marks : Table Bool) : Prop where
  sane : t.Sane marks
  domain : ∀ name, (marks.get? name).isSome = (scope.get? name).isSome

abbrev NewName.Told (t : NewName) : Scopes → Marks → Prop := List.Forall₂ t.Tells

/-- How the names of a scope with the given marks are renamed. -/
structure NewName.Suits (t : NewName) (marks : Table Bool) (π : Renaming) : Prop where
  swaps : π = 1 ∨ π = Equiv.swap t.old t.new
  receiver : π receiverName = receiverName
  super : π superName = superName
  renamed : ∀ name marked, marks.get? name = some marked → π name = t.word marked name

abbrev NewName.Fits (t : NewName) : Marks → List Renaming → Prop := List.Forall₂ t.Suits

def Scopes.rename (S : Scopes) (ρ : List Renaming) : Scopes :=
  List.zipWith (fun scope π => scope.rename π) S ρ

namespace NewName

theorem Tells.fresh {scope : Scope} {marks : Table Bool} (tells : t.Tells scope marks) :
    scope.get? t.new = none := by
  have domain := tells.domain t.new
  cases held : marks.get? t.new with
  | none => simpa [held] using domain.symm
  | some marked => exact absurd rfl (tells.sane.fresh t.new marked held)

theorem Tells.get?_eq_none {scope : Scope} {marks : Table Bool} (tells : t.Tells scope marks)
    {name : String} : scope.get? name = none ↔ marks.get? name = none := by
  rw [← Option.isNone_iff_eq_none, ← Option.isNone_iff_eq_none, ← Option.not_isSome,
    ← Option.not_isSome, tells.domain]

theorem sane_nil : t.Sane [] where
  fresh _ _ held := by cases held
  old _ held := by cases held

theorem Sane.set {marks : Table Bool} (sane : t.Sane marks) {name : String} (ne : name ≠ t.new)
    {marked : Bool} (old : marked = true → name = t.old ∧ Ordinary name) :
    t.Sane (marks.set name marked) where
  fresh other b held := by
    by_cases same : other = name
    · rwa [same]
    · rw [Table.get?_set_of_ne _ _ same] at held
      exact sane.fresh other b held
  old other held := by
    by_cases same : other = name
    · rw [same, Table.get?_set_self] at held
      rw [same]
      exact old (Option.some.inj held)
    · rw [Table.get?_set_of_ne _ _ same] at held
      exact sane.old other held

theorem tells_nil : t.Tells [] [] := ⟨sane_nil, fun _ => rfl⟩

theorem tells_holding {word : String} (ne : word ≠ t.new) :
    t.Tells (Scope.holding word) [(word, false)] := by
  refine ⟨?_, fun name => ?_⟩
  · refine (sane_nil (t := t)).set ne ?_
    intro h
    cases h
  · by_cases same : word = name <;> simp [Scope.holding, Table.get?, same]

/-- A scope without the marked name is not renamed. -/
theorem suits_one {marks : Table Bool} (unmarked : ∀ name, marks.get? name ≠ some true) :
    t.Suits marks 1 where
  swaps := Or.inl rfl
  receiver := rfl
  super := rfl
  renamed name marked held := by
    cases marked with
    | false => rfl
    | true => exact absurd held (unmarked name)

/-- The names of every scope can be renamed. -/
theorem Sane.exists_suits {marks : Table Bool} (sane : t.Sane marks) (ordinary : Ordinary t.new) :
    ∃ π, t.Suits marks π := by
  by_cases marked : marks.get? t.old = some true
  · have old := (sane.old t.old marked).2
    refine ⟨Equiv.swap t.old t.new, Or.inr rfl, ?_, ?_, fun name b held => ?_⟩
    · exact Equiv.swap_apply_of_ne_of_ne old.receiver.symm ordinary.receiver.symm
    · exact Equiv.swap_apply_of_ne_of_ne old.super.symm ordinary.super.symm
    · cases b with
      | true =>
          rw [(sane.old name held).1, Equiv.swap_apply_left]
          rfl
      | false =>
          refine Equiv.swap_apply_of_ne_of_ne ?_ (sane.fresh name false held)
          rintro rfl
          rw [marked] at held
          cases held
  · refine ⟨1, suits_one fun name held => marked ?_⟩
    rwa [(sane.old name held).1] at held

/-- A name that a scope has is found under its name in the renamed program. -/
theorem Suits.get?_rename {scope : Scope} {marks : Table Bool} {π : Renaming}
    (suits : t.Suits marks π) {name : String} {marked : Bool}
    (held : marks.get? name = some marked) :
    (scope.rename π).get? (t.word marked name) = scope.get? name := by
  rw [← suits.renamed name marked held, Table.get?_rename]

/-- A name that a scope does not have is not found in the renamed program either. -/
theorem Suits.get?_rename_eq_none {scope : Scope} {marks : Table Bool} {π : Renaming}
    (suits : t.Suits marks π) (tells : t.Tells scope marks) {name : String} (ne : name ≠ t.new)
    (missing : scope.get? name = none) {marked : Bool} (old : marked = true → name = t.old) :
    (scope.rename π).get? (t.word marked name) = none := by
  rcases suits.swaps with rfl | rfl
  · rw [Table.rename_one]
    cases marked with
    | true => exact tells.fresh
    | false => exact missing
  · obtain ⟨other, same, none⟩ : ∃ other, Equiv.swap t.old t.new other = t.word marked name ∧
        scope.get? other = none := by
      cases marked with
      | true =>
          rw [old rfl] at missing
          exact ⟨t.old, Equiv.swap_apply_left _ _, missing⟩
      | false =>
          by_cases same : name = t.old
          · exact ⟨t.new, (Equiv.swap_apply_right _ _).trans same.symm, tells.fresh⟩
          · exact ⟨name, Equiv.swap_apply_of_ne_of_ne same ne, missing⟩
    rw [← same, Table.get?_rename, none]

section Scopes

variable {S : Scopes} {M : Marks} {ρ : List Renaming}

theorem Told.eq_old (told : t.Told S M) {name : String} (refers : M.refers name = true) :
    name = t.old ∧ Ordinary name := by
  induction told with
  | nil => cases refers
  | @cons scope marks S M tells _ ih =>
      rw [Marks.refers] at refers
      cases held : marks.get? name with
      | none =>
          rw [held, Option.getD_none] at refers
          exact ih refers
      | some marked =>
          rw [held, Option.getD_some] at refers
          rw [refers] at held
          exact tells.sane.old name held

/-- Names have the distances that they had. -/
theorem Told.distance?_rename (told : t.Told S M) (fits : t.Fits M ρ) {name : String}
    (ne : name ≠ t.new) :
    (S.rename ρ).distance? (t.word (M.refers name) name) = S.distance? name := by
  induction told generalizing ρ with
  | nil => rfl
  | @cons scope marks S M tells told ih =>
      cases fits with
      | @cons _ π _ ρ suits fits =>
          rw [Scopes.rename, List.zipWith_cons_cons, Scopes.distance?_cons, Scopes.distance?_cons,
            Table.has, Table.has, Marks.refers]
          cases held : marks.get? name with
          | some marked =>
              have own : (scope.get? name).isSome := by
                rw [← tells.domain, held]
                rfl
              rw [Option.getD_some, suits.get?_rename held, if_pos own, if_pos own]
          | none =>
              have missing := tells.get?_eq_none.2 held
              rw [Option.getD_none, missing,
                suits.get?_rename_eq_none tells ne missing fun h => (Told.eq_old told h).1]
              exact congrArg (Option.map (· + 1)) (ih fits)

/-- A name that is being declared is so in the renamed program. -/
theorem Told.isBegun_rename (told : t.Told S M) (fits : t.Fits M ρ) {name : String}
    (ne : name ≠ t.new) :
    (S.rename ρ).isBegun (t.word (M.refers name) name) = S.isBegun name := by
  cases told with
  | nil => rfl
  | @cons scope marks S M tells told =>
      cases fits with
      | @cons _ π _ ρ suits fits =>
          rw [Scopes.rename, List.zipWith_cons_cons, Scopes.isBegun, Scopes.isBegun, Marks.refers]
          cases held : marks.get? name with
          | some marked => rw [Option.getD_some, suits.get?_rename held]
          | none =>
              have missing := tells.get?_eq_none.2 held
              rw [Option.getD_none, missing,
                suits.get?_rename_eq_none tells ne missing fun h => (Told.eq_old told h).1]

/-- A word of the language does not mean the renamed variable. -/
theorem Told.refers_eq_false (told : t.Told S M) {name : String} (word : ¬ Ordinary name) :
    M.refers name = false := by
  cases refers : M.refers name with
  | false => rfl
  | true => exact absurd (Told.eq_old told refers).2 word

/-- Nor does a name that is in no scope. -/
theorem Told.refers_eq_false_of_distance? (told : t.Told S M) {name : String}
    (missing : S.distance? name = none) : M.refers name = false := by
  induction told with
  | nil => rfl
  | @cons scope marks S M tells _ ih =>
      rw [Scopes.distance?_cons] at missing
      split at missing
      · cases missing
      · rename_i free
        have none : scope.get? name = none := by
          simpa [Table.has] using free
        rw [Marks.refers, tells.get?_eq_none.1 none]
        exact ih (Option.map_eq_none_iff.1 missing)

/-- A declared name may not be declared again. -/
theorem Fits.of_declare (told : t.Told S M) {name : String} {marked : Bool}
    (new : S.declares name = false) (fits : t.Fits (M.declare name marked) ρ) : t.Fits M ρ := by
  cases told with
  | nil => exact fits
  | @cons scope marks S M tells told =>
      cases fits with
      | @cons _ π _ ρ suits fits =>
          refine .cons { suits with renamed := fun other b held => suits.renamed other b ?_ } fits
          rw [Table.get?_set_of_ne]
          · exact held
          rintro rfl
          have missing : scope.get? other = none := by
            simpa [Scopes.declares, Table.has] using new
          rw [tells.get?_eq_none.1 missing] at held
          cases held

theorem isSome_get?_set {α : Type} (table : Table α) (name other : String) (value : α) :
    ((table.set name value).get? other).isSome = (other == name || (table.get? other).isSome) :=
  Table.has_set table name other value

theorem Told.declare (told : t.Told S M) {name : String} (ne : name ≠ t.new) {marked : Bool}
    (old : marked = true → name = t.old ∧ Ordinary name) :
    t.Told (S.declare name) (M.declare name marked) := by
  cases told with
  | nil => exact .nil
  | @cons scope marks S M tells told =>
      refine .cons ⟨tells.sane.set ne old, fun other => ?_⟩ told
      rw [isSome_get?_set, tells.domain]
      split
      · rename_i held
        by_cases same : other = name
        · rw [same, show (scope.get? name).isSome = true from held, Bool.or_true]
        · simp [same]
      · rw [isSome_get?_set]

theorem Told.introduce (told : t.Told S M) {name : Token} (ne : name.lexeme ≠ t.new) {marked : Bool}
    (old : marked = true → name.lexeme = t.old ∧ Ordinary name.lexeme) :
    t.Told (S.introduce name) (M.declare name.lexeme marked) := by
  cases told with
  | nil => exact .nil
  | @cons scope marks S M tells told =>
      refine .cons ⟨tells.sane.set ne old, fun other => ?_⟩ told
      rw [isSome_get?_set, isSome_get?_set, tells.domain]
      split
      · rfl
      · rw [isSome_get?_set]
        cases other == name.lexeme <;> rfl

/-- The declared name is not that of the variable. -/
theorem Told.introduce_other (told : t.Told S M) {name : Token} (ne : name.lexeme ≠ t.new) :
    t.Told (S.introduce name) (M.declare name.lexeme false) :=
  told.introduce ne fun marked => nomatch marked

/-- Where a name is declared, it is renamed as its scope. -/
theorem Told.rename_declare (told : t.Told S M) {name : String} {marked : Bool}
    (fits : t.Fits (M.declare name marked) ρ) :
    (S.declare name).rename ρ = (S.rename ρ).declare (t.word marked name) ∧
      (S.rename ρ).declares (t.word marked name) = S.declares name := by
  cases told with
  | nil => exact ⟨rfl, rfl⟩
  | @cons scope marks S M tells told =>
      cases fits with
      | @cons _ π _ ρ suits fits =>
          have renamed := suits.renamed name marked (Table.get?_set_self _ _ _)
          have has : Table.has (scope.rename π) (π name) = scope.has name := by
            rw [Table.has, Table.has, Table.get?_rename]
          rw [← renamed]
          refine ⟨?_, has⟩
          rw [Scopes.rename, Scopes.rename, Scopes.declare, List.zipWith_cons_cons,
            List.zipWith_cons_cons, Scopes.declare, has]
          split
          · rfl
          · rw [Table.rename_set]

theorem Told.rename_introduce (told : t.Told S M) {name : Token} {marked : Bool}
    (fits : t.Fits (M.declare name.lexeme marked) ρ) :
    (S.introduce name).rename ρ = (S.rename ρ).introduce (t.token marked name) := by
  have declared := (told.rename_declare fits).1
  rw [Scopes.introduce, Scopes.introduce, lexeme_token, ← declared]
  cases told with
  | nil => rfl
  | @cons scope marks S M tells told =>
      cases fits with
      | @cons _ π _ ρ suits fits =>
          have renamed := suits.renamed name.lexeme marked (Table.get?_set_self _ _ _)
          rw [← renamed, Scopes.declare, Scopes.define, Scopes.rename, List.zipWith_cons_cons,
            Table.rename_set]
          rfl

end Scopes

end NewName

/-! ### Bindings -/

/-- What a binding says, but for the name. -/
def Binding.place (b : Binding) : Site × Option Nat := (b.site, b.distance)

/-- Findings of a program and of its renamed copy: no errors, and the same bindings. -/
structure Rebinds (fs gs : List Finding) : Prop where
  errors : scopeErrorsOf gs = []
  bindings : (bindingsOf gs).map Binding.place = (bindingsOf fs).map Binding.place

namespace Rebinds

theorem nil : Rebinds [] [] := ⟨rfl, rfl⟩

theorem append {fs gs fs' gs' : List Finding} (h : Rebinds fs gs) (h' : Rebinds fs' gs') :
    Rebinds (fs ++ fs') (gs ++ gs') where
  errors := by rw [scopeErrorsOf_append, h.errors, h'.errors, List.append_nil]
  bindings := by
    rw [bindingsOf_append, bindingsOf_append, List.map_append, List.map_append, h.bindings,
      h'.bindings]

theorem findingIf {faulty : Bool} (h : faulty = false) (faulty' : Bool) (fault fault' : ScopeFault)
    (culprit culprit' : Token) :
    Rebinds (findingIf faulty' fault' culprit') (findingIf faulty fault culprit) where
  errors := (scopeErrorsOf_findingIf _ _ _).2 h
  bindings := by rw [bindingsOf_findingIf, bindingsOf_findingIf]

end Rebinds

section Expressions

variable {S : Scopes} {M : Marks} {ρ : List Renaming}

/-- A name that is used is bound as before. -/
theorem NewName.Told.rebinds_bind (told : t.Told S M) (fits : t.Fits M ρ) (site : Site)
    {name : Token} (ne : name.lexeme ≠ t.new) :
    Rebinds (bind S site name)
      (bind (S.rename ρ) site (t.token (M.refers name.lexeme) name)) where
  errors := rfl
  bindings := by
    rw [bind, bind, lexeme_token, told.distance?_rename fits ne]
    rfl

/-- A word of the language is bound as before. -/
theorem NewName.Told.rebinds_bind_word (told : t.Told S M) (fits : t.Fits M ρ) (site : Site)
    {keyword : Token} (ne : keyword.lexeme ≠ t.new) (word : ¬ Ordinary keyword.lexeme) :
    Rebinds (bind S site keyword) (bind (S.rename ρ) site keyword) := by
  have bound := told.rebinds_bind fits site ne
  rwa [told.refers_eq_false word, token_false] at bound

mutual

theorem Expr.rebinds (told : t.Told S M) (fits : t.Fits M ρ) (context : Context)
    (pending : Option String) : ∀ e : Expr, (∀ n ∈ e.nodes, t.Avoids n) →
    scopeErrorsOf (e.findings context pending S) = [] →
    Rebinds (e.findings context pending S)
      ((e.rename t M).findings context pending (S.rename ρ))
  | .literal _, _, _ => .nil
  | .grouping a, avoids, errors | .unary _ a, avoids, errors | .get a _, avoids, errors => by
      rw [Expr.nodes, List.forall_mem_append] at avoids
      exact Expr.rebinds told fits context pending a avoids.1 errors
  | .binary a _ b, avoids, errors | .logical a _ b, avoids, errors => by
      rw [Expr.nodes, List.forall_mem_append, List.forall_mem_append] at avoids
      rw [Expr.findings, scopeErrorsOf_append, List.append_eq_nil_iff] at errors
      exact (Expr.rebinds told fits context pending a avoids.1.1 errors.1).append
        (Expr.rebinds told fits context pending b avoids.1.2 errors.2)
  | .set a _ b, avoids, errors => by
      rw [Expr.nodes, List.forall_mem_append, List.forall_mem_append] at avoids
      rw [Expr.findings, scopeErrorsOf_append, List.append_eq_nil_iff] at errors
      exact (Expr.rebinds told fits context pending b avoids.1.1 errors.1).append
        (Expr.rebinds told fits context pending a avoids.1.2 errors.2)
  | .variable site name, avoids, errors => by
      have here := avoids _ (Expr.self_mem_nodes _)
      have ne := here.fresh name (List.mem_singleton_self _)
      rw [Expr.findings, scopeErrorsOf_append, List.append_eq_nil_iff,
        scopeErrorsOf_findingIf, Bool.or_eq_false_iff, Bool.and_eq_false_iff] at errors
      obtain ⟨⟨ready, other⟩, -⟩ := errors
      refine Rebinds.append (.findingIf ?_ _ _ _ _ _) (told.rebinds_bind fits site ne)
      rw [NewName.lexeme_token, told.isBegun_rename fits ne, told.distance?_rename fits ne, ready,
        Bool.false_or, Bool.and_eq_false_iff]
      -- A name that is in no scope is not that of the variable.
      cases distance : S.distance? name.lexeme with
      | some d => exact Or.inr rfl
      | none =>
          rw [distance] at other
          rw [NewName.word, if_neg]
          · exact other
          rw [told.refers_eq_false_of_distance? distance]
          exact Bool.false_ne_true
  | .assign site name a, avoids, errors => by
      have here := avoids _ (Expr.self_mem_nodes _)
      rw [Expr.nodes, List.forall_mem_append] at avoids
      rw [Expr.findings, scopeErrorsOf_append, List.append_eq_nil_iff] at errors
      exact (Expr.rebinds told fits context pending a avoids.1 errors.1).append
        (told.rebinds_bind fits site (here.fresh name (List.mem_singleton_self _)))
  | .call a _ as, avoids, errors => by
      rw [Expr.nodes, List.forall_mem_append, List.forall_mem_append] at avoids
      rw [Expr.findings, scopeErrorsOf_append, List.append_eq_nil_iff] at errors
      exact (Expr.rebinds told fits context pending a avoids.1.1 errors.1).append
        (Expr.rebindsAll told fits context pending as avoids.1.2 errors.2)
  | .this site keyword, avoids, errors => by
      have here := avoids _ (Expr.self_mem_nodes _)
      have word := (here.sound.spelled keyword (List.mem_singleton_self _)).keyword .this
        here.sound.formed
      rw [Expr.findings] at errors
      rw [Expr.rename, Expr.findings, Expr.findings]
      split
      · rename_i outside
        rw [if_pos outside] at errors
        cases errors
      · refine told.rebinds_bind_word fits site (here.fresh keyword (List.mem_singleton_self _)) ?_
        intro ordinary
        exact ordinary.receiver word
  | .super site keyword method, avoids, errors => by
      have here := avoids _ (Expr.self_mem_nodes _)
      have word := (here.sound.spelled keyword List.mem_cons_self).keyword .super
        here.sound.formed
      rw [Expr.findings, scopeErrorsOf_append, scopeErrorsOf_append, List.append_eq_nil_iff,
        List.append_eq_nil_iff, scopeErrorsOf_findingIf, scopeErrorsOf_findingIf] at errors
      refine Rebinds.append (.append (.findingIf errors.1.1 _ _ _ _ _)
        (.findingIf errors.1.2 _ _ _ _ _)) ?_
      refine told.rebinds_bind_word fits site (here.fresh keyword List.mem_cons_self) ?_
      intro ordinary
      exact ordinary.super word

theorem Expr.rebindsAll (told : t.Told S M) (fits : t.Fits M ρ) (context : Context)
    (pending : Option String) : ∀ es : List Expr, (∀ n ∈ Expr.nodesAll es, t.Avoids n) →
    scopeErrorsOf (Expr.findingsAll context pending S es) = [] →
    Rebinds (Expr.findingsAll context pending S es)
      (Expr.findingsAll context pending (S.rename ρ) (Expr.renameAll t M es))
  | [], _, _ => .nil
  | e :: es, avoids, errors => by
      rw [Expr.nodesAll, List.forall_mem_append] at avoids
      rw [Expr.findingsAll, scopeErrorsOf_append, List.append_eq_nil_iff] at errors
      exact (Expr.rebinds told fits context pending e avoids.1 errors.1).append
        (Expr.rebindsAll told fits context pending es avoids.2 errors.2)

end

end Expressions

/-! ### Declarations -/

namespace NewName

variable {S : Scopes} {M : Marks} {ρ : List Renaming} {n : Nat}

theorem eq_old_of_chooses {name : Token} (ordinary : Ordinary name.lexeme)
    (chosen : t.chooses n M name = true) : name.lexeme = t.old ∧ Ordinary name.lexeme := by
  rw [chooses, Bool.and_eq_true, Bool.and_eq_true] at chosen
  exact ⟨eq_of_beq chosen.1.2, ordinary⟩

theorem declares_eq_false {name : Token}
    (errors : scopeErrorsOf (declarationFindings S name) = []) :
    S.declares name.lexeme = false :=
  (scopeErrorsOf_findingIf _ _ _).1 errors

/-- A declaration is as good as before. -/
theorem Told.rebinds_declaration (told : t.Told S M) {name : Token} {marked : Bool}
    (fits : t.Fits (M.declare name.lexeme marked) ρ)
    (errors : scopeErrorsOf (declarationFindings S name) = []) :
    Rebinds (declarationFindings S name)
      (declarationFindings (S.rename ρ) (t.token marked name)) := by
  apply Rebinds.findingIf
  rw [lexeme_token, (told.rename_declare fits).2]
  exact declares_eq_false errors

structure AvoidsNames (t : NewName) (names : List Token) : Prop where
  ordinary : ∀ name ∈ names, Ordinary name.lexeme
  fresh : ∀ name ∈ names, name.lexeme ≠ t.new

theorem AvoidsNames.of_cons {name : Token} {names : List Token}
    (avoids : t.AvoidsNames (name :: names)) :
    (Ordinary name.lexeme ∧ name.lexeme ≠ t.new) ∧ t.AvoidsNames names :=
  ⟨⟨avoids.ordinary name List.mem_cons_self, avoids.fresh name List.mem_cons_self⟩,
    fun other h => avoids.ordinary other (List.mem_cons_of_mem _ h),
    fun other h => avoids.fresh other (List.mem_cons_of_mem _ h)⟩

theorem Told.introduceAll (told : t.Told S M) {names : List Token} (avoids : t.AvoidsNames names) :
    t.Told (S.introduceAll names).1 (t.marksAll n M names) := by
  induction names generalizing S M n with
  | nil => exact told
  | cons name names ih =>
      obtain ⟨⟨ordinary, fresh⟩, rest⟩ := avoids.of_cons
      exact ih (told.introduce fresh (eq_old_of_chooses ordinary)) rest

theorem Fits.of_marksAll (told : t.Told S M) {names : List Token} (avoids : t.AvoidsNames names)
    (errors : scopeErrorsOf (S.introduceAll names).2 = [])
    (fits : t.Fits (t.marksAll n M names) ρ) :
    t.Fits M ρ := by
  induction names generalizing S M n with
  | nil => exact fits
  | cons name names ih =>
      obtain ⟨⟨ordinary, fresh⟩, rest⟩ := avoids.of_cons
      rw [Scopes.introduceAll, scopeErrorsOf_append, List.append_eq_nil_iff] at errors
      have next := told.introduce fresh (eq_old_of_chooses (n := n) (M := M) ordinary)
      exact .of_declare told (declares_eq_false errors.1) (ih next rest errors.2 fits)

/-- The parameters of a function are declared as before. -/
theorem Told.rebinds_introduceAll (told : t.Told S M) {names : List Token}
    (avoids : t.AvoidsNames names) (errors : scopeErrorsOf (S.introduceAll names).2 = [])
    (fits : t.Fits (t.marksAll n M names) ρ) :
    ((S.rename ρ).introduceAll (t.parameters n M names)).1 = (S.introduceAll names).1.rename ρ ∧
      Rebinds (S.introduceAll names).2
        ((S.rename ρ).introduceAll (t.parameters n M names)).2 := by
  induction names generalizing S M n with
  | nil => exact ⟨rfl, .nil⟩
  | cons name names ih =>
      obtain ⟨⟨ordinary, fresh⟩, rest⟩ := avoids.of_cons
      rw [Scopes.introduceAll, scopeErrorsOf_append, List.append_eq_nil_iff] at errors
      have next := told.introduce fresh (eq_old_of_chooses (n := n) (M := M) ordinary)
      have here : t.Fits (t.marks n M name) ρ := .of_marksAll next rest errors.2 fits
      obtain ⟨scopes, later⟩ := ih next rest errors.2 fits
      rw [parameters, Scopes.introduceAll, ← told.rename_introduce here]
      exact ⟨scopes, (told.rebinds_declaration here errors.1).append later⟩

theorem Avoids.of_function {d : FunctionDecl} (avoids : t.Avoids (.stmt (.function d))) :
    (Ordinary d.name.lexeme ∧ d.name.lexeme ≠ t.new) ∧ t.AvoidsNames d.parameters :=
  AvoidsNames.of_cons ⟨avoids.sound.ordinary_of_function, avoids.fresh⟩

theorem Avoids.of_class {name : Token} {clause : Option Expr} {ds : List FunctionDecl}
    (avoids : t.Avoids (.stmt (.class name clause ds))) :
    (Ordinary name.lexeme ∧ name.lexeme ≠ t.new) ∧ ∀ d ∈ ds, t.AvoidsNames d.parameters := by
  obtain ⟨ordinary, members⟩ := avoids.sound.ordinary_of_class
  refine ⟨⟨ordinary, avoids.fresh name List.mem_cons_self⟩, fun d hd => ⟨members d hd, ?_⟩⟩
  intro p hp
  apply avoids.fresh
  apply List.mem_cons_of_mem
  exact List.mem_flatMap.2 ⟨d, hd, List.mem_cons_of_mem _ hp⟩

theorem Avoids.of_var {name : Token} {initializer : Option Expr}
    (avoids : t.Avoids (.stmt (.var name initializer))) :
    Ordinary name.lexeme ∧ name.lexeme ≠ t.new :=
  ⟨.of_spelled avoids.sound.formed (avoids.sound.spelled name (List.mem_singleton_self _)),
    avoids.fresh name (List.mem_singleton_self _)⟩

/-- The marks after a statement are those for the scopes after it. -/
theorem Told.after (told : t.Told S M) {s : Stmt} (avoids : ∀ node ∈ s.nodes, t.Avoids node) :
    t.Told (s.after S) (s.marks t n M) := by
  have here := avoids _ s.self_mem_nodes
  have formed : ∀ node ∈ s.nodes, node.WellFormed := fun node h => (avoids node h).sound.formed
  cases s with
  | var name initializer =>
      obtain ⟨ordinary, fresh⟩ := here.of_var
      exact told.introduce fresh (eq_old_of_chooses ordinary)
  | function d => exact told.introduce_other here.of_function.1.2
  | «class» name clause ds => exact told.introduce_other here.of_class.1.2
  | branch c s alternative =>
      rw [Stmt.after_of_isPlain S formed rfl]
      exact told
  | «while» c s =>
      rw [Stmt.after_of_isPlain S formed rfl]
      exact told
  | _ => exact told

theorem Told.exists_afterAll (told : t.Told S M) {ss : List Stmt}
    (avoids : ∀ node ∈ Stmt.nodesAll ss, t.Avoids node) :
    ∃ S', t.Told S' (Stmt.marksAll t n M ss) := by
  induction ss generalizing S M n with
  | nil => exact ⟨S, told⟩
  | cons s ss ih =>
      rw [Stmt.nodesAll, List.forall_mem_append] at avoids
      exact ih (told.after avoids.1) avoids.2

/-- A renaming that suits what a scope has after a statement suits what it has before. -/
theorem Fits.of_marks (told : t.Told S M) (context : Context) {s : Stmt}
    (errors : scopeErrorsOf (s.findings context S).2 = []) (fits : t.Fits (s.marks t n M) ρ) :
    t.Fits M ρ := by
  cases s with
  | var name initializer =>
      refine .of_declare told (declares_eq_false ?_) fits
      cases initializer with
      | none => exact errors
      | some value =>
          rw [Stmt.findings, scopeErrorsOf_append, List.append_eq_nil_iff] at errors
          exact errors.1
  | function d =>
      rw [Stmt.findings, scopeErrorsOf_append, List.append_eq_nil_iff] at errors
      exact .of_declare told (declares_eq_false errors.1) fits
  | «class» name clause ds =>
      refine .of_declare told (declares_eq_false ?_) fits
      cases clause with
      | none =>
          rw [Stmt.findings, scopeErrorsOf_append, List.append_eq_nil_iff] at errors
          exact errors.1
      | some superclass =>
          simp only [Stmt.findings, scopeErrorsOf_append, List.append_eq_nil_iff] at errors
          exact errors.1.1.1
  | _ => exact fits

theorem Fits.of_marksAll_stmt (told : t.Told S M) (context : Context) {ss : List Stmt}
    (avoids : ∀ node ∈ Stmt.nodesAll ss, t.Avoids node)
    (errors : scopeErrorsOf (Stmt.findingsAll context S ss) = [])
    (fits : t.Fits (Stmt.marksAll t n M ss) ρ) : t.Fits M ρ := by
  induction ss generalizing S M n with
  | nil => exact fits
  | cons s ss ih =>
      rw [Stmt.nodesAll, List.forall_mem_append] at avoids
      rw [Stmt.findingsAll_cons, scopeErrorsOf_append, List.append_eq_nil_iff] at errors
      exact .of_marks told context errors.1 (ih (told.after avoids.1) avoids.2 errors.2 fits)

theorem Fits.of_isPlain (fits : t.Fits M ρ) {s : Stmt} (plain : s.isPlain) :
    t.Fits (s.marks t n M) ρ := by
  rw [Stmt.marks_of_isPlain plain]
  exact fits

/-- What a scope has at its end decides how its names are renamed. -/
theorem Fits.exists_cons (fits : t.Fits M ρ) (ordinary : Ordinary t.new) {inner : Table Bool}
    (told : t.Told S (inner :: M)) {ss : List Stmt}
    (avoids : ∀ node ∈ Stmt.nodesAll ss, t.Avoids node) :
    ∃ π, t.Fits (Stmt.marksAll t n (inner :: M) ss) (π :: ρ) := by
  obtain ⟨inner', same⟩ := Stmt.exists_marksAll_cons (t := t) n inner M ss
  obtain ⟨S', told'⟩ := told.exists_afterAll (n := n) avoids
  rw [same] at told' ⊢
  cases told' with
  | cons tells _ =>
      obtain ⟨π, suits⟩ := tells.sane.exists_suits ordinary
      exact ⟨π, .cons suits fits⟩

theorem Told.holding (told : t.Told S M) {word : String} (ne : word ≠ t.new) :
    t.Told (Scope.holding word :: S) ([(word, false)] :: M) :=
  .cons (tells_holding ne) told

/-- A scope that holds a word of the language is not renamed. -/
theorem Fits.holding (fits : t.Fits M ρ) (word : String) :
    t.Fits ([(word, false)] :: M) (1 :: ρ) := by
  refine .cons (suits_one fun name held => ?_) fits
  rw [Table.get?] at held
  split at held <;> cases held

end NewName

@[simp] theorem Scopes.rename_cons_one (scope : Scope) (S : Scopes) (ρ : List Renaming) :
    Scopes.rename (scope :: S) (1 :: ρ) = scope :: S.rename ρ := by
  rw [Scopes.rename, List.zipWith_cons_cons, Table.rename_one]
  rfl

theorem FunctionDecl.findings_eq (kind : FunctionContext) (context : Context) (S : Scopes)
    (name : Token) (parameters : List Token) (body : List Stmt) :
    FunctionDecl.findings kind context S ⟨name, parameters, body⟩ =
      (Scopes.introduceAll ([] :: S) parameters).2 ++
        Stmt.findingsAll { context with function := kind }
          (Scopes.introduceAll ([] :: S) parameters).1 body := rfl

/-! ### Statements -/

/-- The scopes after a statement are renamed as those before it. -/
theorem Stmt.after_rename {S : Scopes} {M : Marks} {ρ : List Renaming} {n : Nat}
    (told : t.Told S M) : ∀ s : Stmt, (∀ node ∈ s.nodes, t.Avoids node) →
    t.Fits (s.marks t n M) ρ → (s.rename t n M).after (S.rename ρ) = (s.after S).rename ρ
  | .expression _, _, _ | .print _, _, _ | .block _, _, _ | .return _ none, _, _
  | .return _ (some _), _, _ => rfl
  | .var name none, _, fits | .var name (some _), _, fits => (told.rename_introduce fits).symm
  | .function d, _, fits => by
      rw [Stmt.rename, Stmt.after, FunctionDecl.name_rename]
      exact (told.rename_introduce fits).symm
  | .class name none _, _, fits | .class name (some _) _, _, fits =>
      (told.rename_introduce fits).symm
  | .branch _ s none, avoids, fits | .while _ s, avoids, fits => by
      have plain : s.isPlain := (avoids _ (Stmt.self_mem_nodes _)).sound.formed
      rw [Stmt.nodes, List.forall_mem_append, List.forall_mem_append] at avoids
      exact Stmt.after_rename told s avoids.1.2 (fits.of_isPlain plain)
  | .branch _ s (some s'), avoids, fits => by
      have formed : ∀ node ∈ (Stmt.branch _ s (some s')).nodes, node.WellFormed :=
        fun node h => (avoids node h).sound.formed
      obtain ⟨plain, plain'⟩ : s.isPlain ∧ s'.isPlain := formed _ (Stmt.self_mem_nodes _)
      rw [Stmt.nodes, List.forall_mem_append, List.forall_mem_append, List.forall_mem_append]
        at avoids formed
      have first :=
        Stmt.after_rename (n := n) told s avoids.1.1.2 (fits.of_isPlain plain)
      rw [Stmt.after_of_isPlain S formed.1.1.2 plain] at first
      rw [Stmt.rename, Stmt.after, first, Stmt.after, Stmt.after_of_isPlain S formed.1.1.2 plain]
      exact Stmt.after_rename told s' avoids.1.2 (fits.of_isPlain plain')

/-- A class that does not inherit from itself does not do so under another name. -/
theorem superclassFindings_rebinds {name : Token} (fresh : name.lexeme ≠ t.new) {M : Marks}
    {clause : Expr} (errors : scopeErrorsOf (superclassFindings name clause) = []) :
    Rebinds (superclassFindings name clause) (superclassFindings name (clause.rename t M)) := by
  cases clause with
  | «variable» site other =>
      rw [superclassFindings, scopeErrorsOf_findingIf, decide_eq_false_iff_not] at errors
      apply Rebinds.findingIf
      rw [decide_eq_false_iff_not, NewName.lexeme_token, NewName.word]
      split
      · exact fresh.symm
      · exact errors
  | _ => exact .nil

mutual

theorem Stmt.rebinds (ordinary : Ordinary t.new) (context : Context) : ∀ {S : Scopes} {M : Marks}
    {ρ : List Renaming} {n : Nat} (s : Stmt), t.Told S M → (∀ node ∈ s.nodes, t.Avoids node) →
    scopeErrorsOf (s.findings context S).2 = [] → t.Fits (s.marks t n M) ρ →
    Rebinds (s.findings context S).2 ((s.rename t n M).findings context (S.rename ρ)).2
  | S, M, ρ, n, .expression e, told, avoids, errors, fits
  | S, M, ρ, n, .print e, told, avoids, errors, fits => by
      rw [Stmt.nodes, List.forall_mem_append] at avoids
      exact e.rebinds told fits context none avoids.1 errors
  | S, M, ρ, n, .var name none, told, avoids, errors, fits =>
      told.rebinds_declaration fits errors
  | S, M, ρ, n, .var name (some e), told, avoids, errors, fits => by
      obtain ⟨ordinary, fresh⟩ := (avoids _ (Stmt.self_mem_nodes _)).of_var
      rw [Stmt.nodes, List.forall_mem_append] at avoids
      rw [Stmt.findings, scopeErrorsOf_append, List.append_eq_nil_iff] at errors
      have inside := told.declare fresh (NewName.eq_old_of_chooses (n := n) (M := M) ordinary)
      have value := e.rebinds inside fits context _ avoids.1 errors.2
      have declared := told.rebinds_declaration fits errors.1
      rw [(told.rename_declare fits).1] at value
      -- The initializer of a variable of the whole program still has its name to look out for.
      have pending : (if (S.rename ρ).isEmpty then
          some (t.token (t.chooses n M name) name).lexeme else none) =
          if S.isEmpty then some name.lexeme else none := by
        cases told with
        | nil => simp [Scopes.rename, NewName.chooses, NewName.token, NewName.word]
        | cons => cases fits with | cons => rfl
      rw [Stmt.rename, Stmt.findings, Stmt.findings, pending]
      exact declared.append value
  | S, M, ρ, n, .block body, told, avoids, errors, fits => by
      rw [Stmt.nodes, List.forall_mem_append] at avoids
      have inside : t.Told ([] :: S) ([] :: M) := .cons NewName.tells_nil told
      -- The renaming of the new scope is known only from what the scope has at its end.
      obtain ⟨π, fits⟩ := NewName.Fits.exists_cons (n := n) fits ordinary inside avoids.1
      exact Stmt.rebindsAll ordinary context body inside avoids.1 errors fits
  | S, M, ρ, n, .branch e s none, told, avoids, errors, fits
  | S, M, ρ, n, .while e s, told, avoids, errors, fits => by
      have plain : s.isPlain := (avoids _ (Stmt.self_mem_nodes _)).sound.formed
      rw [Stmt.nodes, List.forall_mem_append, List.forall_mem_append] at avoids
      rw [Stmt.findings, scopeErrorsOf_append, List.append_eq_nil_iff] at errors
      have condition := e.rebinds told fits context none avoids.1.1 errors.1
      exact condition.append
        (Stmt.rebinds ordinary context s told avoids.1.2 errors.2 (fits.of_isPlain plain))
  | S, M, ρ, n, .branch e s (some s'), told, avoids, errors, fits => by
      have formed : ∀ node ∈ (Stmt.branch e s (some s')).nodes, node.WellFormed :=
        fun node h => (avoids node h).sound.formed
      obtain ⟨plain, plain'⟩ : s.isPlain ∧ s'.isPlain := formed _ (Stmt.self_mem_nodes _)
      rw [Stmt.nodes, List.forall_mem_append, List.forall_mem_append, List.forall_mem_append]
        at avoids formed
      simp only [Stmt.findings, scopeErrorsOf_append, List.append_eq_nil_iff,
        Stmt.findings_fst] at errors
      have first : t.Fits (s.marks t n M) ρ := fits.of_isPlain plain
      have second : t.Fits (s'.marks t (n + s.variables) M) ρ := fits.of_isPlain plain'
      have unchanged := Stmt.after_of_isPlain S formed.1.1.2 plain
      have renamed := Stmt.after_rename told s avoids.1.1.2 first
      rw [unchanged] at errors renamed
      simp only [Stmt.rename, Stmt.findings, Stmt.findings_fst, unchanged, renamed]
      exact ((e.rebinds told fits context none avoids.1.1.1 errors.1.1).append
        (Stmt.rebinds ordinary context s told avoids.1.1.2 errors.1.2 first)).append
        (Stmt.rebinds ordinary context s' told avoids.1.2 errors.2 second)
  | S, M, ρ, n, .function d, told, avoids, errors, fits => by
      obtain ⟨⟨_, fresh⟩, names⟩ := (avoids _ (Stmt.self_mem_nodes _)).of_function
      rw [Stmt.nodes, List.forall_mem_append] at avoids
      rw [Stmt.findings, scopeErrorsOf_append, List.append_eq_nil_iff] at errors
      have body := FunctionDecl.rebinds ordinary .function context (n := n) d
        (told.introduce_other fresh) names avoids.1 errors.2 fits
      rw [told.rename_introduce fits] at body
      rw [Stmt.rename, Stmt.findings, Stmt.findings, FunctionDecl.name_rename]
      exact (told.rebinds_declaration fits errors.1).append body
  | S, M, ρ, n, .return keyword none, told, avoids, errors, fits =>
      .findingIf ((scopeErrorsOf_findingIf _ _ _).1 errors) _ _ _ _ _
  | S, M, ρ, n, .return keyword (some e), told, avoids, errors, fits => by
      rw [Stmt.nodes, List.forall_mem_append] at avoids
      rw [Stmt.findings, scopeErrorsOf_append, List.append_eq_nil_iff, scopeErrorsOf_append,
        List.append_eq_nil_iff, scopeErrorsOf_findingIf, scopeErrorsOf_findingIf] at errors
      exact (Rebinds.append (.findingIf errors.1.1 _ _ _ _ _)
        (.findingIf errors.1.2 _ _ _ _ _)).append
        (e.rebinds told fits context none avoids.1 errors.2)
  | S, M, ρ, n, .class name none ds, told, avoids, errors, fits => by
      obtain ⟨⟨_, fresh⟩, names⟩ := (avoids _ (Stmt.self_mem_nodes _)).of_class
      rw [Stmt.nodes, List.forall_mem_append] at avoids
      rw [Stmt.findings, scopeErrorsOf_append, List.append_eq_nil_iff] at errors
      have inside := (told.introduce_other fresh).holding ordinary.receiver.symm
      have methods := Stmt.rebindsOfMethods ordinary _ (n := n) ds inside names avoids.1 errors.2
        (fits.holding _)
      rw [Scopes.rename_cons_one, told.rename_introduce fits] at methods
      exact (told.rebinds_declaration fits errors.1).append methods
  | S, M, ρ, n, .class name (some e) ds, told, avoids, errors, fits => by
      have here := avoids _ (Stmt.self_mem_nodes _)
      obtain ⟨⟨_, fresh⟩, names⟩ := here.of_class
      rw [Stmt.nodes, List.forall_mem_append, List.forall_mem_append] at avoids
      simp only [Stmt.findings, scopeErrorsOf_append, List.append_eq_nil_iff] at errors
      obtain ⟨⟨⟨declared, clause⟩, superclass⟩, methods⟩ := errors
      have after := told.introduce_other fresh
      have inside := (after.holding ordinary.super.symm).holding ordinary.receiver.symm
      have ofMethods := Stmt.rebindsOfMethods ordinary _ (n := n) ds inside names avoids.1.2 methods
        ((fits.holding _).holding _)
      have ofClause := e.rebinds after fits _ none avoids.1.1 superclass
      rw [Scopes.rename_cons_one, Scopes.rename_cons_one] at ofMethods
      rw [told.rename_introduce fits] at ofMethods ofClause
      refine Rebinds.append (.append (.append (told.rebinds_declaration fits declared) ?_)
        ofClause) ofMethods
      exact superclassFindings_rebinds fresh clause

theorem Stmt.rebindsAll (ordinary : Ordinary t.new) (context : Context) : ∀ {S : Scopes}
    {M : Marks} {ρ : List Renaming} {n : Nat} (ss : List Stmt), t.Told S M →
    (∀ node ∈ Stmt.nodesAll ss, t.Avoids node) →
    scopeErrorsOf (Stmt.findingsAll context S ss) = [] → t.Fits (Stmt.marksAll t n M ss) ρ →
    Rebinds (Stmt.findingsAll context S ss)
      (Stmt.findingsAll context (S.rename ρ) (Stmt.renameAll t n M ss))
  | _, _, _, _, [], _, _, _, _ => .nil
  | S, M, ρ, n, s :: ss, told, avoids, errors, fits => by
      rw [Stmt.nodesAll, List.forall_mem_append] at avoids
      rw [Stmt.findingsAll_cons, scopeErrorsOf_append, List.append_eq_nil_iff] at errors
      have after := told.after (n := n) avoids.1
      have here : t.Fits (s.marks t n M) ρ := .of_marksAll_stmt after context avoids.2 errors.2 fits
      rw [Stmt.renameAll, Stmt.findingsAll_cons, Stmt.findingsAll_cons,
        Stmt.after_rename told s avoids.1 here]
      exact (Stmt.rebinds ordinary context s told avoids.1 errors.1 here).append
        (Stmt.rebindsAll ordinary context ss after avoids.2 errors.2 fits)

theorem Stmt.rebindsOfMethods (ordinary : Ordinary t.new) (context : Context) : ∀ {S : Scopes}
    {M : Marks} {ρ : List Renaming} {n : Nat} (ds : List FunctionDecl), t.Told S M →
    (∀ d ∈ ds, t.AvoidsNames d.parameters) →
    (∀ node ∈ Stmt.nodesOfMethods ds, t.Avoids node) →
    scopeErrorsOf (Stmt.findingsOfMethods context S ds) = [] → t.Fits M ρ →
    Rebinds (Stmt.findingsOfMethods context S ds)
      (Stmt.findingsOfMethods context (S.rename ρ) (Stmt.renameMethods t n M ds))
  | _, _, _, _, [], _, _, _, _, _ => .nil
  | S, M, ρ, n, d :: ds, told, names, avoids, errors, fits => by
      obtain ⟨name, names⟩ := List.forall_mem_cons.1 names
      rw [Stmt.nodesOfMethods, List.forall_mem_append] at avoids
      rw [Stmt.findingsOfMethods, scopeErrorsOf_append, List.append_eq_nil_iff] at errors
      rw [Stmt.renameMethods, Stmt.findingsOfMethods, Stmt.findingsOfMethods,
        FunctionDecl.name_rename]
      exact (FunctionDecl.rebinds ordinary _ context d told name avoids.1 errors.1 fits).append
        (Stmt.rebindsOfMethods ordinary context ds told names avoids.2 errors.2 fits)

theorem FunctionDecl.rebinds (ordinary : Ordinary t.new) (kind : FunctionContext)
    (context : Context) : ∀ {S : Scopes} {M : Marks} {ρ : List Renaming} {n : Nat}
    (d : FunctionDecl), t.Told S M → t.AvoidsNames d.parameters →
    (∀ node ∈ d.nodes, t.Avoids node) →
    scopeErrorsOf (d.findings kind context S) = [] → t.Fits M ρ →
    Rebinds (d.findings kind context S)
      ((d.rename t n M).findings kind context (S.rename ρ))
  | S, M, ρ, n, ⟨name, parameters, body⟩, told, names, avoids, errors, fits => by
      rw [FunctionDecl.findings_eq, scopeErrorsOf_append, List.append_eq_nil_iff] at errors
      have inside : t.Told ([] :: S) ([] :: M) := .cons NewName.tells_nil told
      have within := inside.introduceAll (n := n) names
      obtain ⟨inner, marks⟩ := NewName.exists_marksAll_cons (t := t) n [] M parameters
      obtain ⟨π, last⟩ := NewName.Fits.exists_cons (n := n + parameters.length) fits ordinary
        (marks ▸ within) avoids
      rw [← marks] at last
      have first := NewName.Fits.of_marksAll_stmt within _ avoids errors.2 last
      obtain ⟨scopes, declared⟩ := inside.rebinds_introduceAll names errors.1 first
      have rest := Stmt.rebindsAll ordinary _ body within avoids errors.2 last
      rw [← scopes] at rest
      exact declared.append rest

end

/-- The analysis of the renamed program finds no error and the same bindings. -/
theorem renamed_rebinds (ordinary : Ordinary t.new) {ss : List Stmt}
    (avoids : ∀ node ∈ Stmt.nodesAll ss, t.Avoids node)
    (errors : scopeErrorsOf (analyze ss) = []) :
    Rebinds (analyze ss) (analyze (renamed t ss)) := by
  have told : t.Told [] [] := .nil
  have fits : t.Fits (Stmt.marksAll t 0 [] ss) [] := by
    rw [Stmt.marksAll_nil]
    exact .nil
  exact Stmt.rebindsAll ordinary .top ss told avoids errors fits

end Lox
