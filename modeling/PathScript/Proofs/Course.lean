import PathScript.Proofs.Lift
import PathScript.Proofs.Tier.History

/-! # Courses of readings

A reading looks at its cell, changes what is remembered there, and then walks,
runs the unit of the cell, or walks and makes a unit. Whatever the kind of the
cell, nothing else that is remembered changes but the registry and the clock, and
the only units that get into the cell are those that were made. -/

namespace PathScript

def ReadCell.unit? : ReadCell → Option SpecializedUnit
  | specialized (.ready u _) => some u
  | dynamic t => t.current.map Prod.fst
  | _ => none

/-! ## Changes of a cell -/

namespace Accelerator

/-- A cell has changed, and the clock was looked at. The cell has the unit it had, a good one, or none. -/
structure Touched (cell : CellId) (Good : SpecializedUnit → Prop) (a a' : Accelerator) : Prop where
  rest : a' = { a with cells := a'.cells, ticks := a'.ticks }
  ticks : a.ticks ≤ a'.ticks
  size : a'.cells.size = a.cells.size
  others : ∀ {i}, i ≠ cell → a'.cells.get? i = a.cells.get? i
  unit : ∀ {c u}, a'.cells.get? cell = some c → c.unit? = some u →
    (∃ c', a.cells.get? cell = some c' ∧ c'.unit? = some u) ∨ Good u

variable {cell : CellId} {Good Good' : SpecializedUnit → Prop} {a a' : Accelerator} {ticks : Nat}

theorem Touched.mono (h : a.Touched cell Good a') (hg : ∀ u, Good u → Good' u) : a.Touched cell Good' a' :=
  { h with unit := fun hget hu => (h.unit hget hu).imp_right (hg _) }

theorem Touched.refl (a : Accelerator) : a.Touched cell Good a :=
  ⟨rfl, Nat.le_refl _, rfl, fun _ => rfl, fun hget hu => .inl ⟨_, hget, hu⟩⟩

theorem touched_set {c : ReadCell} (hticks : a.ticks ≤ ticks)
    (hc : ∀ u, c.unit? = some u → (∃ c', a.cells.get? cell = some c' ∧ c'.unit? = some u) ∨ Good u) :
    a.Touched cell Good { a with cells := a.cells.set cell c, ticks } where
  rest := rfl
  ticks := hticks
  size := Table.size_set ..
  others := fun hne => Table.get?_set_ne hne.symm c
  unit := fun hget hu => by
    rw [Table.get?_set] at hget
    split at hget
    next => exact hc _ (Option.some.inj hget ▸ hu)
    next => exact .inl ⟨_, hget, hu⟩

theorem touched_update {g : TierState → TierState} (hticks : a.ticks ≤ ticks)
    (hg : ∀ t u, (g t).current.map Prod.fst = some u → t.current.map Prod.fst = some u ∨ Good u) :
    a.Touched cell Good { a with cells := a.cells.update cell (.mapTier g), ticks } where
  rest := rfl
  ticks := hticks
  size := Table.size_update ..
  others := fun hne => by rw [Table.get?_update, if_neg hne.symm]
  unit := fun hget hu => by
    rw [Table.get?_update, if_pos rfl] at hget
    obtain ⟨c, hc, rfl⟩ := Option.map_eq_some_iff.mp hget
    cases c with
    | dynamic t => exact (hg t _ hu).imp_left fun hu => ⟨_, hc, hu⟩
    | _ => exact .inl ⟨_, hc, hu⟩

end Accelerator

/-! ## Courses -/

/-- A unit for what a walk has met is registered, or found. -/
def SpecializedUnit.register (classes : ClassTable) (p : Path) (r : Value × List Observed) (a : Accelerator) :
    Option (SpecializedUnit × Nat) × Accelerator :=
  let key := keyOf p r.2 r.1
  let found := a.registry.provide key fun _ => generate classes key p r.2 r.1
  (found.1, { a with registry := found.2 })

namespace Access

open Accelerator

/-- How a reading goes on when it has looked at its cell. -/
inductive Course where
  | walk
  | run (u : SpecializedUnit)
  /-- If the walk fails, memory is reset; else it keeps the unit that was made or found. -/
  | make (reset : Accelerator → Accelerator) (keep : Option (SpecializedUnit × Nat) → Accelerator → Accelerator)

/-- A walk from which a unit is made. -/
def making (ev : Evaluator) (f : Frame) (p : Path) (reset : Accelerator → Accelerator)
    (keep : Option (SpecializedUnit × Nat) → Accelerator → Accelerator) : EvalM Value :=
  (Walk.along ev f p p.segments .null none).onError (fun m => { m with accel := reset m.accel }) >>= fun r =>
    EvalM.stepAccel (SpecializedUnit.register f.world.classes p r) >>= fun found =>
      EvalM.modifyAccel (keep found) >>= fun _ => pure r.1

def Course.perform (ev : Evaluator) (f : Frame) (p : Path) : Course → EvalM Value
  | walk => Walk.read ev f p
  | run u => u.run ev f p
  | make reset keep => making ev f p reset keep

/-- A cell that is specialised at once. -/
def specializing (cell : CellId) : Course :=
  .make (fun a => { a with cells := a.cells.set cell (.specialized .pending) }) fun found a =>
    { a with cells := a.cells.set cell (.specialized (found.elim .retired fun u => .ready u.1 u.2)) }

/-- A cell that counts readings. -/
def promoting (f : Frame) (cell : CellId) : Course :=
  .make (fun a => { a with cells := a.cells.update cell (.mapTier .failed) }) fun
    | some (u, g), a => { a with cells := a.cells.update cell (.mapTier fun t => t.promoted u g) }
    | none, a => { a with
        cells := a.cells.update cell (.mapTier fun t => t.dropped (f.world.clock a.ticks)), ticks := a.ticks + 1 }

/-- The course of a reading, and what is remembered when it is taken. -/
def course (f : Frame) (cell : CellId) (a : Accelerator) : Course × Accelerator :=
  match (a.cells.get? cell).getD .safe with
  | .safe => (.walk, a)
  | .specialized s =>
    let (plan, s) := s.advance a.registry.generation
    (match plan with
      | .run u => .run u
      | .specialize => specializing cell
      | .walk => .walk, { a with cells := a.cells.set cell (.specialized s) })
  | .dynamic t =>
    match t.live? a.registry.generation with
    | some u => (.run u, a)
    | none =>
      let (plan, t) := t.advance f.runtime.config (f.world.clock a.ticks)
      (match plan with
        | .specialize => promoting f cell
        | _ => .walk, { a with cells := a.cells.set cell (.dynamic t), ticks := a.ticks + 1 })

variable (ev : Evaluator) (f : Frame) (p : Path) (cell : CellId)

/-- While a unit is made only the walk can fail. -/
theorem make_onError {α : Type} (reset : Machine → Machine) (k : Value × Option (SpecializedUnit × Nat) → EvalM α) :
    ((SpecializedUnit.make ev f p).onError reset >>= k) =
      ((Walk.along ev f p p.segments .null none).onError reset >>= fun r =>
        EvalM.stepAccel (SpecializedUnit.register f.world.classes p r) >>= fun found => k (r.1, found)) := by
  funext m
  simp only [SpecializedUnit.make, Run.bind_apply, Run.onError]
  cases Walk.along ev f p p.segments .null none m with
  | ok r m₁ => simp only [EvalM.stepAccel_apply]; rfl
  | error e m₁ => rfl
  | diverged => rfl

theorem specialize_eq : specialize ev f p cell = (specializing cell).perform ev f p := by
  refine (make_onError ev f p _ _).trans (congrArg _ (funext fun r => congrArg _ (funext fun found => ?_)))
  cases found <;> rfl

theorem promote_eq : promote ev f p cell = (promoting f cell).perform ev f p := by
  refine (make_onError ev f p _ _).trans (congrArg _ (funext fun r => congrArg _ (funext fun found => ?_)))
  cases found <;> rfl

/-- A reading takes its course. -/
theorem read_eq_perform : read ev f p cell = EvalM.stepAccel (course f cell) >>= Course.perform ev f p := by
  funext m
  rw [Run.bind_ok (EvalM.stepAccel_apply _ m)]
  have haccel : EvalM.accel m = .ok m.accel m := rfl
  rw [read, Run.bind_ok haccel, course]
  cases (m.accel.cells.get? cell).getD .safe with
  | safe => rfl
  | specialized s =>
    dsimp only
    cases (s.advance m.accel.registry.generation).1 with
    | specialize => dsimp only; rw [specialize_eq]; rfl
    | _ => rfl
  | dynamic t =>
    dsimp only
    cases t.live? m.accel.registry.generation with
    | some u => rfl
    | none =>
      refine (Run.bind_ok (EvalM.stepAccel_apply _ m) _).trans ?_
      dsimp only
      cases (t.advance f.runtime.config (f.world.clock m.accel.ticks)).1 with
      | specialize => dsimp only; rw [promote_eq]; rfl
      | _ => rfl

/-- What may be done with a cell: its unit is run, or one that was made is kept. -/
def Course.Proper (cell : CellId) (a : Accelerator) : Course → Prop
  | walk => True
  | run u => ∃ c, a.cells.get? cell = some c ∧ c.unit? = some u
  | make reset keep => (∀ a : Accelerator, a.Touched cell (fun _ => False) (reset a)) ∧
      ∀ found (a : Accelerator), a.Touched cell (fun u => ∃ g, found = some (u, g)) (keep found a)

theorem specializing_proper (a : Accelerator) : (specializing cell).Proper cell a := by
  refine ⟨fun a => touched_set (Nat.le_refl _) nofun, fun found a => touched_set (Nat.le_refl _) ?_⟩
  cases found with
  | none => nofun
  | some u => exact fun _ hu => .inr ⟨u.2, by cases hu; rfl⟩

theorem promoting_proper (a : Accelerator) : (promoting f cell).Proper cell a := by
  refine ⟨fun a => touched_update (Nat.le_refl _) fun _ _ => .inl, fun found a => ?_⟩
  cases found with
  | none => exact touched_update (Nat.le_succ _) fun _ _ => .inl
  | some u => exact touched_update (Nat.le_refl _) fun _ _ hu => .inr ⟨u.2, by cases hu; rfl⟩

theorem course_proper (a : Accelerator) :
    (course f cell a).1.Proper cell a ∧ a.Touched cell (fun _ => False) (course f cell a).2 := by
  have known : ∀ {c u}, (a.cells.get? cell).getD .safe = c → c.unit? = some u →
      ∃ c, a.cells.get? cell = some c ∧ c.unit? = some u := by
    intro c u hc hu
    cases hget : a.cells.get? cell with
    | none => rw [hget] at hc; cases hc; cases hu
    | some c' => rw [hget] at hc; cases hc; exact ⟨_, rfl, hu⟩
  unfold course
  cases hcell : (a.cells.get? cell).getD .safe with
  | safe => exact ⟨trivial, .refl a⟩
  | specialized s =>
    cases s with
    | pending => exact ⟨specializing_proper cell a, touched_set (Nat.le_refl _) nofun⟩
    | specializing => exact ⟨trivial, touched_set (Nat.le_refl _) nofun⟩
    | retired => exact ⟨trivial, touched_set (Nat.le_refl _) nofun⟩
    | ready u g =>
      by_cases hg : g = a.registry.generation
      · simp only [UnitState.advance, if_pos hg]
        exact ⟨known hcell rfl, touched_set (Nat.le_refl _) fun _ hu => .inl (known hcell hu)⟩
      · simp only [UnitState.advance, if_neg hg]
        exact ⟨trivial, touched_set (Nat.le_refl _) nofun⟩
  | dynamic t =>
    dsimp only
    cases hlive : t.live? a.registry.generation with
    | some u => exact ⟨known hcell (by rw [ReadCell.unit?, TierState.live?_eq_some_iff.mp hlive]; rfl), .refl a⟩
    | none =>
      have hnone : (t.advance f.runtime.config (f.world.clock a.ticks)).2.current = none := TierState.current_advance
      generalize t.advance f.runtime.config (f.world.clock a.ticks) = advanced at hnone
      obtain ⟨plan, next⟩ := advanced
      refine ⟨?_, touched_set (Nat.le_succ _) fun u hu => ?_⟩
      · cases plan with
        | specialize => exact promoting_proper f cell a
        | _ => trivial
      · rw [ReadCell.unit?, hnone] at hu
        cases hu

/-! ## New cells -/

/-- A cell for a path that has not been read, and how often it was looked at the clock for it. -/
def firstCell (f : Frame) (a : Accelerator) : OptimizerMode → ReadCell × Nat
  | .safe => (.safe, 0)
  | .specializing => (.specialized .pending, 0)
  | .dynamic => (.dynamic (.fresh (f.world.clock a.ticks)), 1)

theorem newCell_eq (mode : OptimizerMode) : newCell f mode = EvalM.stepAccel fun a =>
    (a.cells.size, { a with
      cells := (a.cells.alloc (firstCell f a mode).1).2, ticks := a.ticks + (firstCell f a mode).2 }) := by
  cases mode <;> rfl

theorem unit?_firstCell (a : Accelerator) (mode : OptimizerMode) : (firstCell f a mode).1.unit? = none := by
  cases mode <;> rfl

end Access

end PathScript
