import Lox.Bind
import Lox.Proofs.Evaluation.Congruence
import Lox.Proofs.Evaluation.Retention
import Lox.Proofs.Heap.Grounded

/-!
# What is there at the end

What the places of a heap are made with is the same at the end of an execution as at every moment of
it (`foresees_throughout`).  So any two moments agree on it, also on what was made between the
beginning and the first of them.

`Run.Foresees last x y` compares two runs.  The first only extends heaps, and if what it leaves
behind extends to the heap `last`, the second does the same.  A run that checks at each moment
whether the heap extends to `last` is compared with the one that does not.
-/

namespace Lox

namespace Run

variable {last : Heap} {α β : Type}

/-- The second run does what the first one does if that leads to a heap that extends to `last`. -/
def Foresees (last : Heap) (x y : Run α) : Prop :=
  ∀ m : Machine, m.heap.Extends (x.leaves m).heap ∧ ((x.leaves m).heap.Extends last → y m = x m)

namespace Foresees

/-- A run that extends heaps, beside itself. -/
theorem itself {x : Run α} (h : ∀ m : Machine, m.heap.Extends (x.leaves m).heap) :
    Foresees last x x :=
  fun m => ⟨h m, fun _ => rfl⟩

theorem pure (a : α) : Foresees last (pure a) (pure a) := itself fun _ => .refl _

theorem get {f g : Machine → Run α} (h : ∀ m, Foresees last (f m) (g m)) :
    Foresees last (get >>= f) (get >>= g) :=
  fun m => h m m

theorem bind {x y : Run β} {f g : β → Run α} (h : Foresees last x y)
    (k : ∀ b, Foresees last (f b) (g b)) : Foresees last (x >>= f) (y >>= g) := by
  intro m
  obtain ⟨ext, same⟩ := h m
  unfold Run.leaves at *
  cases hx : x m with
  | ok b m' =>
      rw [hx] at ext same
      rw [bind_of_ok hx]
      obtain ⟨ext', same'⟩ := k b m'
      refine ⟨ext.trans ext', fun reaches => ?_⟩
      rw [bind_of_ok (same (ext'.trans reaches))]
      exact same' reaches
  | error halt m' =>
      rw [hx] at ext same
      rw [bind_of_error hx]
      exact ⟨ext, fun reaches => bind_of_error (same reaches)⟩

theorem within {x y : Run α} (id : EnvironmentId) (h : Foresees last x y) :
    Foresees last (within id x) (within id y) := by
  intro m
  have inside := h { m with current := id }
  unfold Run.leaves Run.within at *
  cases hx : x { m with current := id } with
  | ok a m' =>
      rw [hx] at inside
      refine ⟨inside.1, fun reaches => ?_⟩
      rw [inside.2 reaches]
  | error halt m' =>
      rw [hx] at inside
      refine ⟨inside.1, fun reaches => ?_⟩
      rw [inside.2 reaches]

theorem writeAll (pieces : List String) :
    Foresees last (writeAll pieces) (Run.writeAll pieces) := by
  induction pieces with
  | nil => exact .pure ()
  | cons piece pieces ih =>
      have first : Foresees last (write piece) (Run.write piece) := by
        refine .get fun m => ?_
        split
        · exact itself fun _ => .refl _
        · exact itself fun _ => .refl _
      exact first.bind fun _ => ih

theorem flush : Foresees last flush Run.flush := by
  refine .get fun m => ?_
  split
  · exact itself fun _ => .refl _
  · exact .pure ()

theorem small {x : Run α} (h : Small x) : Foresees last x x := by
  refine itself fun m => ?_
  cases h with
  | newEnvironment outer => exact .grow _ _
  | define id name v => exact .define _ id name v
  | defineAll id bindings => exact .defineAll _ id bindings
  | newFunction f => exact .pushFunction _ f
  | newClass c => exact .pushClass _ c
  | newObject id => exact .pushObject _ _
  | setField id name v => exact .setField _ id name v
  | readClock => exact .refl _

def congruence (last : Heap) : Congruence Unit where
  Relates x y := Foresees last (x ()) y
  pure := .pure
  halt _ := itself fun _ => .refl _
  small := small
  bind := .bind
  get _ h := .get h
  within := .within

/-! ### Executions -/

variable {watch₁ watch₂ : Node → Run Unit}

theorem watched (watches : ∀ n, Foresees last (watch₁ n) (watch₂ n)) (fuel : Nat) :
    (∀ e, Foresees last (evaluateWatched watch₁ fuel e) (evaluateWatched watch₂ fuel e)) ∧
      ∀ s, Foresees last (executeWatched watch₁ fuel s) (executeWatched watch₂ fuel s) := by
  induction fuel with
  | zero => exact ⟨fun _ => itself fun _ => .refl _, fun _ => itself fun _ => .refl _⟩
  | succ fuel ih =>
      obtain ⟨he, hx⟩ := ih
      have expression := (congruence last).expression (fun _ => evaluateWatched watch₁ fuel)
        (fun _ => executeWatched watch₁ fuel) he hx
      have statement := (congruence last).statement (fun _ => evaluateWatched watch₁ fuel)
        (fun _ => executeWatched watch₁ fuel) he hx
      refine ⟨fun e => (watches _).bind fun _ => expression e,
        fun s => (watches _).bind fun _ => ?_⟩
      cases s with
      | print value =>
          exact (he value).bind fun v => .get fun m => (writeAll _).bind fun _ => .pure _
      | _ => exact statement _ nofun

theorem executeAll (watches : ∀ n, Foresees last (watch₁ n) (watch₂ n)) (fuel : Nat)
    (ss : List Stmt) :
    Foresees last (executeAllWatched watch₁ fuel ss) (executeAllWatched watch₂ fuel ss) := by
  induction ss with
  | nil => exact flush
  | cons s ss ih => exact ((watched watches fuel).2 s).bind fun _ => ih

end Foresees

end Run

/-- Whatever extends the heap at the end of an execution extends that at every moment of it. -/
theorem foresees_throughout {fuel : Nat} {ss : List Stmt} {m : Machine} {last : Heap}
    (reaches : ((executeAll fuel ss).leaves m).heap.Extends last) :
    m.heap.Extends last ∧ Throughout (fun _ m' => m'.heap.Extends last) fuel ss m := by
  rw [← executeAllWatched_unwatched] at reaches
  have compared (otherwise : Run Unit) :=
    @Run.Foresees.executeAll last Run.unwatched
      (Run.check (fun _ m' => m'.heap.Extends last) otherwise)
      (fun n m => ⟨.refl _, fun here => if_pos here⟩) fuel ss m
  refine ⟨(compared (pure ())).1.trans reaches, fun otherwise => ?_⟩
  rw [(compared otherwise).2 reaches, executeAllWatched_unwatched]

end Lox
