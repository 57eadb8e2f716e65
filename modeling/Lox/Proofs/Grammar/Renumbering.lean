import Mathlib.Data.List.Nodup
import Mathlib.Data.Set.Function
import Lox.Proofs.Grammar.Acceptance
import Lox.Proofs.Grammar.Phrase

/-!
# Programs up to the numbers of their sites

Two programs that are the same once all sites are forgotten have as many sites as each other, and
sending those of the first to those of the second, one after the other, makes the first into the
second (`Stmt.pairedAll_of_forget`).  Where no site is used twice, this is a renumbering
(`exists_renumbers`).
-/

namespace Lox

/-- The first program becomes the second one by a change of its sites that keeps them apart. -/
structure Renumbers (number : Site → Site) (ss ss' : List Stmt) : Prop where
  injective : Set.InjOn number {site | site ∈ sitesOf (Stmt.nodesAll ss)}
  relabeled : Stmt.relabelAll ⟨number, id⟩ ss = ss'

/-- Nodes with equally many sites, and what follows for a function that sends those of the first
ones to those of the second ones. -/
structure Paired (nodes nodes' : List Node) (P : (Site → Site) → Prop) : Prop where
  length : (sitesOf nodes).length = (sitesOf nodes').length
  holds : ∀ f, (sitesOf nodes).map f = sitesOf nodes' → P f

namespace Paired

variable {nodes nodes' others others' : List Node} {P Q : (Site → Site) → Prop} {n n' : Node}

theorem nil (h : ∀ f, P f) : Paired [] [] P := ⟨rfl, fun f _ => h f⟩

theorem imp (h : Paired nodes nodes' P) (hPQ : ∀ f, P f → Q f) : Paired nodes nodes' Q :=
  ⟨h.length, fun f same => hPQ f (h.holds f same)⟩

theorem append (h : Paired nodes nodes' P) (h' : Paired others others' Q) :
    Paired (nodes ++ others) (nodes' ++ others') fun f => P f ∧ Q f where
  length := by
    rw [sitesOf_append, sitesOf_append, List.length_append, List.length_append, h.length,
      h'.length]
  holds f same := by
    rw [sitesOf_append, sitesOf_append, List.map_append] at same
    obtain ⟨same, same'⟩ := List.append_inj same (by rw [List.length_map, h.length])
    exact ⟨h.holds f same, h'.holds f same'⟩

/-- A node that refers to nothing. -/
theorem plain (refers : n.reference? = none) (refers' : n'.reference? = none)
    (h : ∀ f, P f) : Paired [n] [n'] P := by
  have sites : sitesOf [n] = [] := by simp [sitesOf, refers]
  have sites' : sitesOf [n'] = [] := by simp [sitesOf, refers']
  exact ⟨by rw [sites, sites'], fun f _ => h f⟩

theorem snoc (h : Paired nodes nodes' P) (refers : n.reference? = none)
    (refers' : n'.reference? = none) : Paired (nodes ++ [n]) (nodes' ++ [n']) P :=
  (h.append (plain refers refers' fun _ => trivial)).imp fun _ => And.left

theorem reference {site site' : Site} {name name' : Token}
    (refers : n.reference? = some (site, name)) (refers' : n'.reference? = some (site', name')) :
    Paired [n] [n'] fun f => f site = site' := by
  have sites : sitesOf [n] = [site] := by simp [sitesOf, refers]
  have sites' : sitesOf [n'] = [site'] := by simp [sitesOf, refers']
  refine ⟨by rw [sites, sites']; rfl, fun f same => ?_⟩
  rw [sites, sites'] at same
  exact List.head_eq_of_cons_eq same

end Paired

mutual

theorem Expr.paired_of_forget : ∀ {e e' : Expr}, e.relabel .forget = e'.relabel .forget →
    Paired e.nodes e'.nodes fun f => e.relabel ⟨f, id⟩ = e'
  | .literal _, e', h => by
    cases e' with
    | literal =>
        cases h
        exact .plain rfl rfl fun _ => rfl
    | _ => cases h
  | .grouping a, e', h => by
    cases e' with
    | grouping a' =>
        obtain ha := Expr.grouping.inj h
        refine ((Expr.paired_of_forget ha).snoc rfl rfl).imp fun f same => ?_
        rw [Expr.relabel, same]
    | _ => cases h
  | .unary o a, e', h => by
    cases e' with
    | unary o' a' =>
        obtain ⟨rfl, ha⟩ := Expr.unary.inj h
        refine ((Expr.paired_of_forget ha).snoc rfl rfl).imp fun f same => ?_
        rw [Expr.relabel, same]
        rfl
    | _ => cases h
  | .binary a o b, e', h => by
    cases e' with
    | binary a' o' b' =>
        obtain ⟨ha, rfl, hb⟩ := Expr.binary.inj h
        refine (((Expr.paired_of_forget ha).append (Expr.paired_of_forget hb)).snoc rfl rfl).imp
          fun f same => ?_
        rw [Expr.relabel, same.1, same.2]
        rfl
    | _ => cases h
  | .logical a o b, e', h => by
    cases e' with
    | logical a' o' b' =>
        obtain ⟨ha, rfl, hb⟩ := Expr.logical.inj h
        refine (((Expr.paired_of_forget ha).append (Expr.paired_of_forget hb)).snoc rfl rfl).imp
          fun f same => ?_
        rw [Expr.relabel, same.1, same.2]
        rfl
    | _ => cases h
  | .variable site name, e', h => by
    cases e' with
    | «variable» site' name' =>
        obtain ⟨-, rfl⟩ := Expr.variable.inj h
        refine (Paired.reference rfl rfl).imp fun f (same : f site = site') => ?_
        rw [← same]
        rfl
    | _ => cases h
  | .assign site name a, e', h => by
    cases e' with
    | assign site' name' a' =>
        obtain ⟨-, rfl, ha⟩ := Expr.assign.inj h
        refine ((Expr.paired_of_forget ha).append (.reference rfl rfl)).imp fun f same => ?_
        rw [Expr.relabel, same.1, ← same.2]
        rfl
    | _ => cases h
  | .call a paren as, e', h => by
    cases e' with
    | call a' paren' as' =>
        obtain ⟨ha, rfl, has⟩ := Expr.call.inj h
        refine (((Expr.paired_of_forget ha).append (Expr.pairedAll_of_forget has)).snoc rfl
          rfl).imp fun f same => ?_
        rw [Expr.relabel, same.1, same.2]
        rfl
    | _ => cases h
  | .get a name, e', h => by
    cases e' with
    | get a' name' =>
        obtain ⟨ha, rfl⟩ := Expr.get.inj h
        refine ((Expr.paired_of_forget ha).snoc rfl rfl).imp fun f same => ?_
        rw [Expr.relabel, same]
        rfl
    | _ => cases h
  | .set a name b, e', h => by
    cases e' with
    | set a' name' b' =>
        obtain ⟨ha, rfl, hb⟩ := Expr.set.inj h
        refine (((Expr.paired_of_forget hb).append (Expr.paired_of_forget ha)).snoc rfl rfl).imp
          fun f same => ?_
        rw [Expr.relabel, same.1, same.2]
        rfl
    | _ => cases h
  | .this site keyword, e', h => by
    cases e' with
    | this site' keyword' =>
        obtain ⟨-, rfl⟩ := Expr.this.inj h
        refine (Paired.reference rfl rfl).imp fun f (same : f site = site') => ?_
        rw [← same]
        rfl
    | _ => cases h
  | .super site keyword name, e', h => by
    cases e' with
    | super site' keyword' name' =>
        obtain ⟨-, rfl, rfl⟩ := Expr.super.inj h
        refine (Paired.reference rfl rfl).imp fun f (same : f site = site') => ?_
        rw [← same]
        rfl
    | _ => cases h

theorem Expr.pairedAll_of_forget : ∀ {es es' : List Expr},
    Expr.relabelAll .forget es = Expr.relabelAll .forget es' →
      Paired (Expr.nodesAll es) (Expr.nodesAll es') fun f => Expr.relabelAll ⟨f, id⟩ es = es'
  | [], es', h => by
    cases es' with
    | nil => exact .nil fun _ => rfl
    | cons => cases h
  | e :: es, es', h => by
    cases es' with
    | nil => cases h
    | cons e' es' =>
        obtain ⟨he, hes⟩ := List.cons.inj h
        refine ((Expr.paired_of_forget he).append (Expr.pairedAll_of_forget hes)).imp
          fun f same => ?_
        rw [Expr.relabelAll, same.1, same.2]

end

theorem Stmt.ctorIdx_relabel (r : Relabeling) (s : Stmt) : (s.relabel r).ctorIdx = s.ctorIdx := by
  cases s with
  | var _ o | «return» _ o => cases o <;> rfl
  | branch _ _ o | «class» _ o _ => cases o <;> rfl
  | _ => rfl

/-- Statements that are the same up to the sites are of the same form. -/
theorem Stmt.ctorIdx_of_forget {s s' : Stmt} (h : s.relabel .forget = s'.relabel .forget) :
    s.ctorIdx = s'.ctorIdx := by
  rw [← s.ctorIdx_relabel .forget, h, ctorIdx_relabel]

mutual

theorem Stmt.paired_of_forget : ∀ {s s' : Stmt}, s.relabel .forget = s'.relabel .forget →
    Paired s.nodes s'.nodes fun f => s.relabel ⟨f, id⟩ = s'
  | .expression a, s', h => by
    cases s' with
    | expression a' =>
        refine ((Expr.paired_of_forget (Stmt.expression.inj h)).snoc rfl rfl).imp fun f same => ?_
        rw [Stmt.relabel, same]
    | _ => cases Stmt.ctorIdx_of_forget h
  | .print a, s', h => by
    cases s' with
    | print a' =>
        refine ((Expr.paired_of_forget (Stmt.print.inj h)).snoc rfl rfl).imp fun f same => ?_
        rw [Stmt.relabel, same]
    | _ => cases Stmt.ctorIdx_of_forget h
  | .var name none, s', h => by
    cases s' with
    | var name' initializer =>
        cases initializer with
        | none =>
            obtain rfl : name = name' := (Stmt.var.inj h).1
            exact .plain rfl rfl fun _ => rfl
        | some => cases h
    | _ => cases Stmt.ctorIdx_of_forget h
  | .var name (some a), s', h => by
    cases s' with
    | var name' initializer =>
        cases initializer with
        | none => cases h
        | some a' =>
            obtain ⟨rfl, ha⟩ := Stmt.var.inj h
            refine ((Expr.paired_of_forget (Option.some.inj ha)).snoc rfl rfl).imp fun f same => ?_
            rw [Stmt.relabel, same]
            rfl
    | _ => cases Stmt.ctorIdx_of_forget h
  | .block body, s', h => by
    cases s' with
    | block body' =>
        refine ((Stmt.pairedAll_of_forget (Stmt.block.inj h)).snoc rfl rfl).imp fun f same => ?_
        rw [Stmt.relabel, same]
    | _ => cases Stmt.ctorIdx_of_forget h
  | .branch a s none, s', h => by
    cases s' with
    | branch a' s' alternative =>
        cases alternative with
        | none =>
            obtain ⟨ha, hs, -⟩ := Stmt.branch.inj h
            refine (((Expr.paired_of_forget ha).append (Stmt.paired_of_forget hs)).snoc rfl
              rfl).imp fun f same => ?_
            rw [Stmt.relabel, same.1, same.2]
        | some => cases (Stmt.branch.inj h).2.2
    | _ => cases Stmt.ctorIdx_of_forget h
  | .branch a s (some t), s', h => by
    cases s' with
    | branch a' s' alternative =>
        cases alternative with
        | none => cases (Stmt.branch.inj h).2.2
        | some t' =>
            obtain ⟨ha, hs, ht⟩ := Stmt.branch.inj h
            refine ((((Expr.paired_of_forget ha).append (Stmt.paired_of_forget hs)).append
              (Stmt.paired_of_forget (Option.some.inj ht))).snoc rfl rfl).imp fun f same => ?_
            rw [Stmt.relabel, same.1.1, same.1.2, same.2]
    | _ => cases Stmt.ctorIdx_of_forget h
  | .while a s, s', h => by
    cases s' with
    | «while» a' s' =>
        obtain ⟨ha, hs⟩ := Stmt.while.inj h
        refine (((Expr.paired_of_forget ha).append (Stmt.paired_of_forget hs)).snoc rfl rfl).imp
          fun f same => ?_
        rw [Stmt.relabel, same.1, same.2]
    | _ => cases Stmt.ctorIdx_of_forget h
  | .function d, s', h => by
    cases s' with
    | function d' =>
        refine ((FunctionDecl.paired_of_forget (Stmt.function.inj h)).snoc rfl rfl).imp
          fun f same => ?_
        rw [Stmt.relabel, same]
    | _ => cases Stmt.ctorIdx_of_forget h
  | .return keyword none, s', h => by
    cases s' with
    | «return» keyword' value =>
        cases value with
        | none =>
            obtain rfl : keyword = keyword' := (Stmt.return.inj h).1
            exact .plain rfl rfl fun _ => rfl
        | some => cases h
    | _ => cases Stmt.ctorIdx_of_forget h
  | .return keyword (some a), s', h => by
    cases s' with
    | «return» keyword' value =>
        cases value with
        | none => cases h
        | some a' =>
            obtain ⟨rfl, ha⟩ := Stmt.return.inj h
            refine ((Expr.paired_of_forget (Option.some.inj ha)).snoc rfl rfl).imp fun f same => ?_
            rw [Stmt.relabel, same]
            rfl
    | _ => cases Stmt.ctorIdx_of_forget h
  | .class name none ds, s', h => by
    cases s' with
    | «class» name' clause ds' =>
        cases clause with
        | none =>
            obtain ⟨rfl, -, hds⟩ := Stmt.class.inj h
            refine ((Stmt.pairedMethods_of_forget hds).snoc rfl rfl).imp fun f same => ?_
            rw [Stmt.relabel, same]
            rfl
        | some => cases h
    | _ => cases Stmt.ctorIdx_of_forget h
  | .class name (some a) ds, s', h => by
    cases s' with
    | «class» name' clause ds' =>
        cases clause with
        | none => cases h
        | some a' =>
            obtain ⟨rfl, ha, hds⟩ := Stmt.class.inj h
            refine (((Expr.paired_of_forget (Option.some.inj ha)).append
              (Stmt.pairedMethods_of_forget hds)).snoc rfl rfl).imp fun f same => ?_
            rw [Stmt.relabel, same.1, same.2]
            rfl
    | _ => cases Stmt.ctorIdx_of_forget h

theorem Stmt.pairedAll_of_forget : ∀ {ss ss' : List Stmt},
    Stmt.relabelAll .forget ss = Stmt.relabelAll .forget ss' →
      Paired (Stmt.nodesAll ss) (Stmt.nodesAll ss') fun f => Stmt.relabelAll ⟨f, id⟩ ss = ss'
  | [], ss', h => by
    cases ss' with
    | nil => exact .nil fun _ => rfl
    | cons => cases h
  | s :: ss, ss', h => by
    cases ss' with
    | nil => cases h
    | cons s' ss' =>
        obtain ⟨hs, hss⟩ := List.cons.inj h
        refine ((Stmt.paired_of_forget hs).append (Stmt.pairedAll_of_forget hss)).imp
          fun f same => ?_
        rw [Stmt.relabelAll, same.1, same.2]

theorem Stmt.pairedMethods_of_forget : ∀ {ds ds' : List FunctionDecl},
    Stmt.relabelMethods .forget ds = Stmt.relabelMethods .forget ds' →
      Paired (Stmt.nodesOfMethods ds) (Stmt.nodesOfMethods ds') fun f =>
        Stmt.relabelMethods ⟨f, id⟩ ds = ds'
  | [], ds', h => by
    cases ds' with
    | nil => exact .nil fun _ => rfl
    | cons => cases h
  | d :: ds, ds', h => by
    cases ds' with
    | nil => cases h
    | cons d' ds' =>
        obtain ⟨hd, hds⟩ := List.cons.inj h
        refine ((FunctionDecl.paired_of_forget hd).append (Stmt.pairedMethods_of_forget hds)).imp
          fun f same => ?_
        rw [Stmt.relabelMethods, same.1, same.2]

theorem FunctionDecl.paired_of_forget : ∀ {d d' : FunctionDecl},
    d.relabel .forget = d'.relabel .forget →
      Paired d.nodes d'.nodes fun f => d.relabel ⟨f, id⟩ = d'
  | ⟨name, parameters, body⟩, ⟨name', parameters', body'⟩, h => by
    obtain ⟨rfl, names, hbody⟩ := FunctionDecl.mk.inj h
    obtain rfl : parameters = parameters' := by
      simpa [Relabeling.forget] using names
    refine (Stmt.pairedAll_of_forget hbody).imp fun f same => ?_
    rw [FunctionDecl.relabel, same, List.map_id]
    rfl

end

/-- A function that sends the entries of a list without repetition to those of another one. -/
theorem exists_map_eq {α β : Type} [DecidableEq α] [Inhabited β] {as : List α} {bs : List β}
    (nodup : as.Nodup) (length : as.length = bs.length) : ∃ f : α → β, as.map f = bs := by
  refine ⟨fun a => bs.getD (as.idxOf a) default, List.ext_getElem (by simpa) fun i h h' => ?_⟩
  simp [nodup.idxOf_getElem, h']

/-- Programs that are the same up to the sites, none of which is used twice in a program, are
renumberings of each other. -/
theorem exists_renumbers {ss ss' : List Stmt} (nodup : (sitesOf (Stmt.nodesAll ss)).Nodup)
    (nodup' : (sitesOf (Stmt.nodesAll ss')).Nodup)
    (same : Stmt.relabelAll .forget ss = Stmt.relabelAll .forget ss') :
    ∃ number, Renumbers number ss ss' := by
  have paired := Stmt.pairedAll_of_forget same
  obtain ⟨f, sites⟩ := exists_map_eq nodup paired.length
  refine ⟨f, fun site hs site' hs' equal => ?_, paired.holds f sites⟩
  rw [← sites] at nodup'
  exact List.inj_on_of_nodup_map nodup' hs hs' equal

/-- Programs that are read as the same up to the sites are renumberings of each other. -/
theorem parse_renumbers {tokens tokens' : List Token} {firstSite firstSite' : Site}
    (same : Stmt.relabelAll .forget (parse tokens firstSite).statements =
      Stmt.relabelAll .forget (parse tokens' firstSite').statements) :
    ∃ number, Renumbers number (parse tokens firstSite).statements
      (parse tokens' firstSite').statements := by
  obtain ⟨_, built, -⟩ := parse_built tokens firstSite
  obtain ⟨_, built', -⟩ := parse_built tokens' firstSite'
  exact exists_renumbers built.nodup built'.nodup same

end Lox
