import PathScript.Proofs.Lockstep.Sites

/-! # Tiers in evaluation

A history is all that can happen to the state of a path: a reading is a call
that does what it has planned, and every evaluation, whether it gives a value or
fails, changes the state by calls that have returned. The second is an instance
of lockstep, of an evaluation with itself: what is known about the state is its
history, and it grows by complete calls. -/

namespace PathScript

namespace TierRun

variable {config : Config} {s t : TierRun} {now generation : Nat}

/-! ## Complete calls -/

/-- Calls that have all returned, with what was called inside of them. -/
inductive Complete (config : Config) : TierRun → TierRun → Prop where
  | none (s : TierRun) : Complete config s s
  | reading {s t u v : TierRun} {now : Nat} (before : Complete config s t) (le : t.clock ≤ now) (generation : Nat)
      (inside : Complete config (t.call config now generation) u) (ret : Return u v) : Complete config s v

namespace Complete

theorem trans {s t u : TierRun} (h : Complete config s t) (h' : Complete config t u) : Complete config s u := by
  induction h' with
  | none => exact h
  | reading _ le generation inside ret ih _ => exact .reading (ih h) le generation inside ret

/-- The readings that had not returned before have not returned after. -/
theorem running_eq {s t : TierRun} (h : Complete config s t) : t.running = s.running := by
  induction h with
  | none => rfl
  | reading _ _ _ _ ret ih ih' =>
    rw [← ih]
    cases ret <;> simp_all [TierRun.call]

theorem history {s t : TierRun} (h : Complete config s t) (hs : History config s) : History config t := by
  induction h with
  | none => exact hs
  | reading _ le generation _ ret ih ih' => exact .returned (ih' (.call (ih hs) le generation)) ret

end Complete

/-- A cell holds the state of a path, and no event of it lies ahead of the clock. -/
structure Held (cell : CellId) (clock : Nat → Nat) (s : TierRun) (a : Accelerator) : Prop where
  cell : a.cells.get? cell = some (.dynamic s.tier)
  clock : s.clock ≤ clock a.ticks

/-- An evaluation and itself, with a cell that holds the state of a path. -/
def lockstep (world : World) (runtime : Runtime) (cell : CellId) : Lockstep :=
  .self (Complete runtime.config) .none .trans (fun s m => Held cell world.clock s m.accel)
    (fun _ f => f.world = world ∧ f.runtime = runtime) fun _ => True

section Evaluation

variable {world : World} {runtime : Runtime} {cell : CellId} {α β : Type} {ev ev' : Evaluator} {f f' : Frame}

theorem sameStore : (lockstep world runtime cell).SameStore :=
  Lockstep.sameStore_self .none .trans (Held cell world.clock) (fun w r _ => w = world ∧ r = runtime)
    (fun _ _ => trivial) fun _ _ => trivial

theorem lawful : (lockstep world runtime cell).Lawful := sameStore.lawful

/-- What is remembered may change in ways that keep the state of the cell. -/
theorem harmless {g : Accelerator → Accelerator}
    (hg : ∀ s a, Held cell world.clock s a → Held cell world.clock s (g a)) :
    (lockstep world runtime cell).Harmless g := by
  rintro s m _ ⟨rfl, h⟩
  exact ⟨rfl, hg s _ h⟩

theorem sameMemory : (lockstep world runtime cell).SameMemory where
  frames := fun h => h.1
  accel := by
    rintro _ _ _ ⟨rfl, _⟩
    rfl
  note := fun hg => harmless fun s a h => ⟨(hg a).1 ▸ h.cell, (hg a).2.2 ▸ h.clock⟩

/-! ### Readings of other paths -/

theorem harmless_registry (g : UnitRegistry SpecializedUnit → UnitRegistry SpecializedUnit) :
    (lockstep world runtime cell).Harmless fun a => { a with registry := g a.registry } :=
  harmless fun _ _ h => ⟨h.cell, h.clock⟩

/-- A reading by another cell leaves this one to what is evaluated inside. -/
theorem sim_read_other (hclock : ∀ i j : Nat, i ≤ j → world.clock i ≤ world.clock j)
    (hev : (lockstep world runtime cell).Evaluators ev ev') (hf : (lockstep world runtime cell).Frames s f f')
    (path : Path) {c : CellId} (hc : c ≠ cell) :
    (lockstep world runtime cell).Sim s (Access.read ev f path c) (Access.read ev' f' path c) :=
  sameMemory.read lawful.toLocal hev hf (fun _ _ => trivial) (.of_harmless (fun _ hg => harmless fun _ a h =>
    ⟨((hg a).others hc.symm).trans h.cell, Nat.le_trans h.clock (hclock _ _ (hg a).ticks)⟩) harmless_registry)

/-! ### Readings of this path -/

/-- What a reading does, once it is planned. -/
def act (ev : Evaluator) (f : Frame) (path : Path) (cell : CellId) : ReadPlan → EvalM Value
  | .run u => u.run ev f path
  | .walk => Walk.read ev f path
  | .specialize => Access.promote ev f path cell

/-- A reading starts with a call, and does what the call has planned. -/
theorem read_eq_act (hclock : ∀ i j : Nat, i ≤ j → f.world.clock i ≤ f.world.clock j) {m : Machine}
    (h : Held cell f.world.clock s m.accel) : ∃ now a, s.clock ≤ now ∧
      Held cell f.world.clock (s.call f.runtime.config now m.accel.registry.generation) a ∧
      ∀ ev path, Access.read ev f path cell m =
        act ev f path cell (s.tier.plan f.runtime.config now m.accel.registry.generation).1 { m with accel := a } := by
  have taken : ∀ ev path, Access.read ev f path cell m =
      (Access.course f cell m.accel).1.perform ev f path { m with accel := (Access.course f cell m.accel).2 } :=
    fun ev path => by rw [Access.read_eq_perform, Run.bind_ok (EvalM.stepAccel_apply _ m)]
  unfold Access.course at taken
  rw [h.cell, Option.getD_some] at taken
  cases hlive : s.tier.live? m.accel.registry.generation with
  | some u =>
    have hcurrent := TierState.live?_eq_some_iff.mp hlive
    simp only [hlive] at taken
    refine ⟨s.clock, m.accel, Nat.le_refl _, ⟨?_, h.clock⟩, fun ev path => (taken ev path).trans ?_⟩
    · simpa only [call, TierState.plan_of_live hcurrent] using h.cell
    · rw [TierState.plan_of_live hcurrent]
      rfl
  | none =>
    have hplan : s.tier.plan f.runtime.config (f.world.clock m.accel.ticks) m.accel.registry.generation =
        s.tier.advance f.runtime.config (f.world.clock m.accel.ticks) := by
      unfold TierState.plan
      rw [hlive]
    have hlt : cell < m.accel.cells.size := (Array.getElem?_eq_some_iff.mp h.cell).1
    simp only [hlive] at taken
    let next := (s.tier.advance f.runtime.config (f.world.clock m.accel.ticks)).2
    refine ⟨f.world.clock m.accel.ticks, { m.accel with cells := m.accel.cells.set cell (.dynamic next), ticks := _ },
      h.clock, ⟨?_, hclock _ _ (Nat.le_succ _)⟩, fun ev path => (taken ev path).trans ?_⟩
    · simp [Table.get?_set, hlt, call, hplan, next]
    · rw [hplan]
      cases hr : (s.tier.advance f.runtime.config (f.world.clock m.accel.ticks)).1 with
      | specialize => rw [act, Access.promote_eq]
      | walk => rfl
      | run u => exact absurd hr (TierState.advance_ne_run u)

/-- A reading that does not promote ends where the evaluation inside of it ends. -/
theorem joined_of_call {now generation : Nat} (hnow : s.clock ≤ now)
    (hp : (s.tier.plan runtime.config now generation).1 ≠ .specialize) {o o' : Outcome Machine EvalError α}
    (h : (lockstep world runtime cell).Joined (s.call runtime.config now generation) o o') :
    (lockstep world runtime cell).Joined s o o' := by
  -- The machine is as it was at the end of the evaluation; only the call has returned.
  have back : ∀ {t m m'}, Complete runtime.config (s.call runtime.config now generation) t →
      (lockstep world runtime cell).Alike t m m' → ∃ u, Complete runtime.config s u ∧
        (lockstep world runtime cell).Alike u m m' := by
    intro t m m' hle halike
    have top : t.running = (s.tier.plan runtime.config now generation).1 :: s.running := hle.running_eq
    obtain ⟨rfl, hheld⟩ := halike
    refine ⟨{ t with running := s.running }, .reading (.none s) hnow generation hle ?_, rfl, hheld.cell, hheld.clock⟩
    cases hplan : (s.tier.plan runtime.config now generation).1 with
    | specialize => exact absurd hplan hp
    | walk => exact .walk (by rw [top, hplan])
    | run u => exact .run (by rw [top, hplan])
  cases h with
  | ok le alike =>
    obtain ⟨u, hle, halike⟩ := back le alike
    exact .ok hle halike
  | error le related alike =>
    obtain ⟨u, hle, halike⟩ := back le (alike trivial)
    exact .error hle related fun _ => halike
  | diverged => exact .diverged

theorem Held.updateTier {a : Accelerator} {clock : Nat → Nat} (h : Held cell clock s a) (g : TierState → TierState) :
    (a.cells.update cell (.mapTier g)).get? cell = some (.dynamic (g s.tier)) := by
  have hcell : a.cells.cells[cell]? = some (.dynamic s.tier) := h.cell
  simp [Table.update, Table.get?, Array.getElem?_modify, hcell, ReadCell.mapTier]

section Clock

variable (hclock : ∀ i j : Nat, i ≤ j → world.clock i ≤ world.clock j)
include hclock

theorem joined_promote (hev : (lockstep world runtime cell).Evaluators ev ev')
    (hf : (lockstep world runtime cell).Frames s f f') (path : Path) {now generation : Nat} (hnow : s.clock ≤ now)
    (hp : (s.tier.plan runtime.config now generation).1 = .specialize) {m : Machine}
    (hheld : Held cell world.clock (s.call runtime.config now generation) m.accel) :
    (lockstep world runtime cell).Joined s (Access.promote ev f path cell m) (Access.promote ev' f' path cell m) := by
  obtain ⟨rfl, hw, hr⟩ := hf
  have hmake : (lockstep world runtime cell).Sim (s.call runtime.config now generation)
      (SpecializedUnit.make ev f' path) (SpecializedUnit.make ev' f' path) :=
    sameMemory.make lawful.toLocal hev ⟨rfl, hw, hr⟩ (fun _ _ => trivial) fun r =>
      (harmless_registry fun registry => (registry.provide _ _).2).from _
  have hjoined := hmake _ (.none _) m m ⟨rfl, hheld⟩
  have top : ∀ {t}, Complete runtime.config (s.call runtime.config now generation) t →
      t.running = .specialize :: s.running := fun hle => by
    rw [hle.running_eq, ← hp]
    rfl
  simp only [Access.promote, Run.bind_apply, Run.onError]
  generalize SpecializedUnit.make ev f' path m = o at hjoined
  generalize SpecializedUnit.make ev' f' path m = o' at hjoined
  cases hjoined with
  | diverged => exact .diverged
  | @error t e e' m m' le related alike =>
    obtain ⟨rfl, hheld⟩ := alike trivial
    exact .error (.reading (.none s) hnow generation le (.failed (top le))) related
      fun _ => ⟨rfl, hheld.updateTier _, hheld.clock⟩
  | @ok t r m m' le alike =>
    obtain ⟨rfl, hheld⟩ := alike
    obtain ⟨v, found⟩ := r
    cases found with
    | some found =>
      exact .ok (.reading (.none s) hnow generation le (.promoted (top le) found.1 found.2))
        ⟨rfl, hheld.updateTier _, hheld.clock⟩
    | none =>
      subst hw
      exact .ok (.reading (.none s) hnow generation le (.dropped (top le) hheld.clock))
        ⟨rfl, hheld.updateTier _, hclock _ _ (Nat.le_succ _)⟩

theorem sim_read (hev : (lockstep world runtime cell).Evaluators ev ev')
    (hf : (lockstep world runtime cell).Frames s f f') (path : Path) (c : CellId) :
    (lockstep world runtime cell).Sim s (Access.read ev f path c) (Access.read ev' f' path c) := by
  by_cases hc : c = cell
  · subst hc
    intro j _ m m' hm
    obtain ⟨rfl, hheld⟩ : m' = m ∧ _ := hm
    obtain ⟨rfl, hw, hr⟩ := hf
    subst hw hr
    obtain ⟨now, a, hnow, hcalled, hact⟩ := read_eq_act hclock hheld
    have inside : ∀ {x y : EvalM Value},
        (lockstep f'.world f'.runtime c).Sim (j.call f'.runtime.config now m'.accel.registry.generation) x y →
        (lockstep f'.world f'.runtime c).Joined (j.call f'.runtime.config now m'.accel.registry.generation)
          (x { m' with accel := a }) (y { m' with accel := a }) :=
      fun h => h _ (.none _) _ _ ⟨rfl, hcalled⟩
    rw [hact, hact]
    cases hp : (j.tier.plan f'.runtime.config now m'.accel.registry.generation).1 with
    | specialize => exact joined_promote hclock hev ⟨rfl, rfl, rfl⟩ path hnow hp hcalled
    | walk =>
      refine joined_of_call hnow (by rw [hp]; simp) (inside ?_)
      exact lawful.walkRead hev ⟨rfl, rfl, rfl⟩ fun _ _ => trivial
    | run u =>
      refine joined_of_call hnow (by rw [hp]; simp) (inside ?_)
      exact lawful.unitRun hev ⟨rfl, rfl, rfl⟩ (fun _ _ => trivial) u
  · exact sim_read_other hclock hev hf path hc

theorem sim_newCell (hf : (lockstep world runtime cell).Frames s f f') (optimizer : OptimizerMode) :
    (lockstep world runtime cell).Sim s (Access.newCell f optimizer) (Access.newCell f' optimizer) := by
  obtain ⟨rfl, -⟩ := hf
  rw [Access.newCell_eq]
  refine sameMemory.stepAccel (Lockstep.Harmless.from (harmless fun s a h => ⟨?_, ?_⟩) s)
  · have hne : cell ≠ a.cells.size := Nat.ne_of_lt (Array.getElem?_eq_some_iff.mp h.cell).1
    simpa [Table.get?_alloc, hne] using h.cell
  · exact Nat.le_trans h.clock (hclock _ _ (Nat.le_add_right ..))

/-- Whatever a site does, it does to the state of a path by calls that return. -/
theorem sites : (lockstep world runtime cell).Sites :=
  sameMemory.sites lawful.toLocal (fun hf mode => sim_newCell hclock hf mode) fun hev hf _ c => sim_read hclock hev hf _ c

end Clock

end Evaluation

/-! ## The tier machine -/

section Machine

variable {cell : CellId} {f : Frame} {m : Machine}

end Machine

end TierRun

end PathScript
