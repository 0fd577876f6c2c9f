import PathScript.Proofs.Faithful

/-! # Acceleration

An accelerated and an interpreted evaluation of the same program are run side by
side on the same store; the first also works on what is remembered. What is
known about the two is which path each cell belongs to.

Before a path such as `a[0].c` is updated, accelerated evaluation reads the
container as a path of its own, and then its member. So an index on `null` on
the way is reported with the text of the container. -/

namespace PathScript

/-! ## Errors -/

/-- Errors of an accelerated and of an interpreted evaluation: the same, or the same but for the text of a path that
is updated, with an index on `null` on the way to its container. -/
inductive EvalError.Agrees (trees : List Node) : EvalError → EvalError → Prop where
  | same (e : EvalError) : Agrees trees e e
  | update {n index : Node} {path : Path} {site : SiteId} (among : Node.Among trees n)
      (updated : n.updated? = some (.path path site)) (onWay : .index index false ∈ (Access.container path).segments)
      (sourceName : Option String) :
      Agrees trees ⟨.nullReference ((Access.container path).text ++ "[]"), path.span.start, path.line, sourceName⟩
        ⟨.nullReference (path.text ++ "[]"), path.span.start, path.line, sourceName⟩

/-! ## The relation -/

/-- Machines of an accelerated and an interpreted evaluation: the first remembers what is true, the second what it
started with. -/
structure Machine.Beside (classes : ClassTable) (trees : List Node) (start : Accelerator) (paths : List Path)
    (m m' : Machine) : Prop where
  store : m'.store = m.store
  returned : m'.returned = m.returned
  events : m'.events = m.events
  start : m'.accel = start
  faithful : Faithful classes trees paths m.accel

/-- Frames of an accelerated and an interpreted evaluation. -/
structure Frame.Beside (world : World) (f f' : Frame) : Prop where
  world : f.world = world
  mode : f.mode = .accelerated
  eq : f' = f.inMode .interpreted

/-- Accelerated and interpreted evaluation side by side. -/
def acceleration (world : World) (trees : List Node) (start : Accelerator) : Lockstep where
  Index := List Path
  le := (· <+: ·)
  le_refl := List.prefix_refl
  le_trans := List.IsPrefix.trans
  Alike := Machine.Beside world.classes trees start
  Frames := fun _ => Frame.Beside world
  error := EvalError.Agrees trees
  error_refl := .same
  Inside := Node.Among trees
  Bindable := fun _ => True
  Evaluates := fun ev ev' => ev.TakesLiterals ∧ ev'.TakesLiterals

namespace Acceleration

open Lockstep

variable {world : World} {trees : List Node} {start : Accelerator} {paths : List Path} {α β : Type}
  {ev ev' : Evaluator} {f f' : Frame} {n : Node} {p p' : Path} {cell : CellId} {site : SiteId}

theorem sameStore (hfun : ∀ fn ∈ world.functions, Node.Among trees fn.body) :
    (acceleration world trees start).SameStore where
  store := fun h => h.store
  returned := fun h => h.returned
  events := fun h => h.events
  with_store := fun h _ => { h with store := rfl }
  with_returned := fun h _ => { h with returned := rfl }
  with_events := fun h _ => { h with events := rfl }
  frames_mono := fun _ h => h
  frames_eq := fun h => ⟨_, h.eq⟩
  with_scope := fun h _ => ⟨h.world, h.mode, by rw [h.eq]; rfl⟩
  with_this := fun h _ => ⟨h.world, h.mode, by rw [h.eq]; rfl⟩
  deeper := fun h _ => ⟨h.world, h.mode, by rw [h.eq]; rfl⟩
  inside_own := fun ⟨t, ht, ho⟩ hc => ⟨t, ht, ho.child (Node.own_subset_children hc)⟩
  inside_function := fun h hfn => hfun _ (h.world ▸ hfn)
  bindable := fun _ => trivial
  evaluates := fun fuel => ⟨fun h => node_literal h fuel, fun h => node_literal h fuel⟩

/-! ## Steps on one side

What is remembered is changed on the accelerated side alone. -/

theorem sim_look {k : Accelerator → EvalM α} {y : EvalM α}
    (hk : ∀ more a, paths <+: more → Faithful world.classes trees more a →
      (acceleration world trees start).Sim more (k a) y) :
    (acceleration world trees start).Sim paths (EvalM.accel >>= k) y :=
  fun more hle m m' hm => hk more m.accel hle hm.faithful more (List.prefix_refl _) m m' hm

theorem sim_stepAccel {g : Accelerator → α × Accelerator} {k : α → EvalM β} {y : EvalM β} {P : List Path → α → Prop}
    (hg : ∀ more a, paths <+: more → Faithful world.classes trees more a →
      ∃ next, more <+: next ∧ P next (g a).1 ∧ Faithful world.classes trees next (g a).2)
    (hk : ∀ more v, paths <+: more → P more v → (acceleration world trees start).Sim more (k v) y) :
    (acceleration world trees start).Sim paths (EvalM.stepAccel g >>= k) y := by
  intro more hle m m' hm
  obtain ⟨next, hnext, hP, hfaithful⟩ := hg more m.accel hle hm.faithful
  have hbeside : Machine.Beside world.classes trees start next { m with accel := (g m.accel).2 } m' :=
    ⟨hm.store, hm.returned, hm.events, hm.start, hfaithful⟩
  rw [Run.bind_ok (EvalM.stepAccel_apply g m)]
  exact (hk next _ (hle.trans hnext) hP next (List.prefix_refl _) _ m' hbeside).weaken hnext

theorem sim_modifyAccel {g : Accelerator → Accelerator} {x y : EvalM α}
    (hg : ∀ more a, paths <+: more → Faithful world.classes trees more a → Faithful world.classes trees more (g a))
    (hx : (acceleration world trees start).Sim paths x y) :
    (acceleration world trees start).Sim paths (EvalM.modifyAccel g >>= fun _ => x) y :=
  sim_stepAccel (P := fun _ _ => True) (fun more a hle h => ⟨more, List.prefix_refl _, trivial, hg more a hle h⟩)
    fun _ _ hle _ => hx.mono hle

theorem sim_noting {x y : EvalM α} {g : α → Accelerator → Accelerator}
    (hx : (acceleration world trees start).Sim paths x y)
    (hg : ∀ v more a, paths <+: more → Faithful world.classes trees more a → Faithful world.classes trees more (g v a)) :
    (acceleration world trees start).Sim paths (x >>= fun v => EvalM.modifyAccel (g v) >>= fun _ => pure v) y := by
  rw [← bind_pure y]
  exact hx.bind fun v => sim_modifyAccel (hg v) (.pure v)

theorem sim_onError {g : Accelerator → Accelerator} {x y : EvalM α} (hx : (acceleration world trees start).Sim paths x y)
    (hg : ∀ more a, paths <+: more → Faithful world.classes trees more a → Faithful world.classes trees more (g a)) :
    (acceleration world trees start).Sim paths (x.onError fun m => { m with accel := g m.accel }) y := by
  have hy : y.onError id = y := by
    funext m
    simp only [Run.onError]
    cases y m <;> rfl
  rw [← hy]
  exact hx.onError fun more m m' hle hm => { hm with faithful := hg more _ hle hm.faithful }

theorem sim_newCell {k : CellId → EvalM α} {y : EvalM α} (hp : p.Learned trees) (mode : OptimizerMode)
    (hk : ∀ more cell, paths <+: more → more[cell]? = some p → (acceleration world trees start).Sim more (k cell) y) :
    (acceleration world trees start).Sim paths (Access.newCell f mode >>= k) y := by
  rw [Access.newCell_eq]
  refine sim_stepAccel (P := fun more cell => more[cell]? = some p) (fun more a _ h => ?_) hk
  have halloc := h.toTraced.alloc hp (Access.unit?_firstCell f a mode) (a.ticks + (Access.firstCell f a mode).2)
  exact ⟨more ++ [p], List.prefix_append .., h.toTraced.getElem?_alloc, { h with toTraced := halloc }⟩

/-! ## Reading by a cell -/

section Read

variable {lo hi : SiteId} (hg : Grown lo hi trees) (hu : Unambiguous trees)
  (hL : (acceleration world trees start).Lawful) (hev : (acceleration world trees start).Evaluators ev ev')
  (hf : Frame.Beside world f f') (hs : ∀ m ∈ p.nodes, Node.Among trees m)
  (hp : (acceleration world trees start).SamePlace p.segments p p')
include hL hev hf hs hp

theorem sim_walk : (acceleration world trees start).Sim paths (Walk.read ev f p)
    (Walk.along ev' f' p' p.segments .null none >>= fun r => pure r.1) :=
  (hL.along hev hf hs hp .null none).bind fun _ => .pure _

theorem sim_run {u : SpecializedUnit} (hfits : u.Fits world.classes p) :
    (acceleration world trees start).Sim paths (u.run ev f p)
      (Walk.along ev' f' p' p.segments .null none >>= fun r => pure r.1) := by
  rw [SpecializedUnit.run_eq_read ev f p (hf.world ▸ hfits)]
  exact sim_walk hL hev hf hs hp

variable (hcell : paths[cell]? = some p)
include hcell

theorem sim_making {reset : Accelerator → Accelerator} {keep : Option (SpecializedUnit × Nat) → Accelerator → Accelerator}
    {a : Accelerator} (hproper : (Access.Course.make reset keep).Proper cell a) (hlearned : p.Learned trees) :
    (acceleration world trees start).Sim paths (Access.making ev f p reset keep)
      (Walk.along ev' f' p' p.segments .null none >>= fun r => pure r.1) := by
  obtain ⟨hreset, hkeep⟩ := hproper
  rw [Access.making, hf.world]
  refine (sim_onError (hL.along hev hf hs hp .null none) fun more a hle h =>
    h.touched (getElem?_of_grown hcell hle) (hreset a) nofun).bind_from fun r more hle => ?_
  refine sim_stepAccel (P := fun _ found => ∀ u g, found = some (u, g) → u.MadeFor world.classes trees p.text) ?_
    fun next found hnext hmade => ?_
  · intro next a _ hfaithful
    obtain ⟨hregistered, hmade⟩ := hfaithful.toTraced.provide hlearned r.2 r.1
    exact ⟨next, List.prefix_refl _, hmade, { hfaithful with toTraced := hregistered }⟩
  · refine sim_modifyAccel (fun last a hlast h => ?_) (.pure r.1)
    exact h.touched (getElem?_of_grown hcell ((hle.trans hnext).trans hlast)) (hkeep found a) fun u ⟨g, hu⟩ => hmade u g hu

include hg hu in
/-- Reading by a cell is walking, whatever is in the cell. -/
theorem sim_read : (acceleration world trees start).Sim paths (Access.read ev f p cell)
    (Walk.along ev' f' p' p.segments .null none >>= fun r => pure r.1) := by
  rw [Access.read_eq_perform]
  intro more hle m m' hm
  have hcell := getElem?_of_grown hcell hle
  have hlearned : p.Learned trees := hm.faithful.learned p (List.mem_of_getElem? hcell)
  obtain ⟨hproper, htouched⟩ := Access.course_proper f cell m.accel
  rw [Run.bind_ok (EvalM.stepAccel_apply _ m)]
  suffices hsim : (acceleration world trees start).Sim more ((Access.course f cell m.accel).1.perform ev f p) _ from
    hsim more (List.prefix_refl _) _ m' { hm with faithful := hm.faithful.touched hcell htouched nofun }
  cases hcourse : (Access.course f cell m.accel).1 with
  | walk => exact sim_walk hL hev hf hs hp
  | run u =>
    rw [hcourse] at hproper
    obtain ⟨c, hget, hunit⟩ := hproper
    exact sim_run hL hev hf hs hp ((hm.faithful.cells hcell hget hunit).fits (hlearned.textTells hg hu))
  | make reset keep =>
    rw [hcourse] at hproper
    exact sim_making hL hev hf hs hp hcell hproper hlearned

end Read

end Acceleration

end PathScript
