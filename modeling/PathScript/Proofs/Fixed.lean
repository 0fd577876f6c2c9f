import PathScript.Proofs.Faithful
import PathScript.Proofs.Member

/-! # Readings that the store decides

A walk along steps that stand for places looks at the store and changes nothing.
What accelerated evaluation remembers cannot change what it gives: a cell decides
between the walk and a unit that does as the walk does, and whatever is noted on
the way is noted beside the store. -/

namespace PathScript

namespace EvalM

variable {α β : Type} {x : EvalM α} {f : α → EvalM β} {st : Store} {a : α} {e : EvalError} {r : Except EvalError α}
  {r' : Except EvalError β}

/-- On every machine with a store, a computation ends in one way and changes no more than what is remembered. -/
def Fixed (x : EvalM α) (st : Store) (r : Except EvalError α) : Prop :=
  ∀ m, m.store = st → ∃ accel, x m = Run.ofExcept r { m with accel }

namespace Fixed

theorem pure (a : α) : Fixed (pure a) st (.ok a) := fun m _ => ⟨m.accel, rfl⟩

theorem fail (e : EvalError) : Fixed (Run.fail e : EvalM α) st (.error e) := fun m _ => ⟨m.accel, rfl⟩

theorem bind (hx : Fixed x st (.ok a)) (hf : Fixed (f a) st r') : Fixed (x >>= f) st r' := by
  intro m hm
  obtain ⟨accel, hx⟩ := hx m hm
  obtain ⟨accel', hf⟩ := hf { m with accel } hm
  exact ⟨accel', (Run.bind_ok hx f).trans hf⟩

theorem bindError (hx : Fixed x st (.error e)) : Fixed (x >>= f) st (.error e) := by
  intro m hm
  obtain ⟨accel, hx⟩ := hx m hm
  exact ⟨accel, Run.bind_error hx f⟩

theorem stepAccel {g : Accelerator → α × Accelerator} (hf : ∀ a, Fixed (f a) st r') :
    Fixed (EvalM.stepAccel g >>= f) st r' := by
  intro m hm
  obtain ⟨accel, hf⟩ := hf (g m.accel).1 { m with accel := (g m.accel).2 } hm
  exact ⟨accel, (Run.bind_ok (stepAccel_apply g m) f).trans hf⟩

theorem onError {g : Accelerator → Accelerator} (hx : Fixed x st r) :
    Fixed (x.onError fun m => { m with accel := g m.accel }) st r := by
  intro m hm
  obtain ⟨accel, hx⟩ := hx m hm
  cases r with
  | ok a => exact ⟨accel, by rw [Run.onError, hx]; rfl⟩
  | error e => exact ⟨g accel, by rw [Run.onError, hx]; rfl⟩

theorem onStore {locate : Fault → EvalError} {y : StoreM α} {r : Except Fault α} (hy : y st = Run.ofExcept r st) :
    Fixed (EvalM.onStore locate y) st (r.mapError locate) := by
  intro m hm
  refine ⟨m.accel, ?_⟩
  subst hm
  rw [onStore_apply, hy]
  cases r with
  | ok a => rfl
  | error e => rfl

theorem onHeap {locate : Fault → EvalError} {y : HeapM α} {r : Except Fault α} (hy : y st.heap = Run.ofExcept r st.heap) :
    Fixed (EvalM.onHeap locate y) st (r.mapError locate) := by
  intro m hm
  refine ⟨m.accel, ?_⟩
  subst hm
  rw [onHeap_apply, hy]
  cases r with
  | ok a => rfl
  | error e => rfl

end Fixed

end EvalM

open EvalM

/-! ## Readings by a cell -/

namespace Access

variable {ev : Evaluator} {f : Frame} {p : Path} {cell : CellId} {st : Store} {r : Except EvalError (Value × List Observed)}

theorem fixed_walk (h : Fixed (Walk.along ev f p p.segments .null none) st r) :
    Fixed (Walk.read ev f p) st (r.map Prod.fst) := by
  cases r with
  | ok a => exact .bind h (.pure a.1)
  | error e => exact .bindError h

theorem fixed_making (h : Fixed (Walk.along ev f p p.segments .null none) st r) (reset : Accelerator → Accelerator)
    (keep : Option (SpecializedUnit × Nat) → Accelerator → Accelerator) :
    Fixed (making ev f p reset keep) st (r.map Prod.fst) := by
  cases r with
  | ok a => exact .bind h.onError (.stepAccel fun _ => .stepAccel fun _ => .pure a.1)
  | error e => exact .bindError h.onError

/-- The unit of a cell, if it has one, does as the walk along a path. -/
def Serves (ev : Evaluator) (f : Frame) (p : Path) (a : Accelerator) (cell : CellId) : Prop :=
  ∀ c u, a.cells.get? cell = some c → c.unit? = some u → u.run ev f p = Walk.read ev f p

/-- A reading gives what the walk gives, if the unit of its cell does. -/
theorem read_eq (h : Fixed (Walk.along ev f p p.segments .null none) st r) {m : Machine} (hm : m.store = st)
    (hserves : Serves ev f p m.accel cell) :
    ∃ accel, read ev f p cell m = Run.ofExcept (r.map Prod.fst) { m with accel } := by
  rw [read_eq_perform, Run.bind_ok (stepAccel_apply _ m)]
  obtain ⟨hproper, -⟩ := course_proper f cell m.accel
  suffices hfixed : Fixed ((course f cell m.accel).1.perform ev f p) st (r.map Prod.fst) from
    hfixed { m with accel := (course f cell m.accel).2 } hm
  cases hcourse : (course f cell m.accel).1 with
  | walk => exact fixed_walk h
  | run u =>
    rw [hcourse] at hproper
    obtain ⟨c, hget, hu⟩ := hproper
    rw [Course.perform, hserves c u hget hu]
    exact fixed_walk h
  | make reset keep => exact fixed_making h reset keep

theorem newCell_serves (f : Frame) (mode : OptimizerMode) (m : Machine) :
    ∃ cell accel, newCell f mode m = .ok cell { m with accel } ∧ ∀ ev p, Serves ev f p accel cell := by
  rw [newCell_eq, stepAccel_apply]
  refine ⟨_, _, rfl, fun ev p c u hget hu => ?_⟩
  rw [Table.get?_alloc, Table.alloc_fst, if_pos rfl] at hget
  cases hget
  cases (unit?_firstCell f m.accel mode).symm.trans hu

/-- The value of a path is what the walk gives, in either mode. -/
theorem readPath_eq (h : Fixed (Walk.along ev f p p.segments .null none) st r) {m : Machine} (hm : m.store = st)
    {site : SiteId} (hserves : ∀ cell, m.accel.reads.get? site = some cell → Serves ev f p m.accel cell) :
    ∃ accel, readPath ev f p site m = Run.ofExcept (r.map Prod.fst) { m with accel } := by
  unfold readPath
  split
  · exact fixed_walk h m hm
  · have haccel : EvalM.accel m = .ok m.accel m := rfl
    rw [Run.bind_ok haccel]
    cases hcell : m.accel.reads.get? site with
    | some cell => exact read_eq h hm (hserves cell hcell)
    | none =>
      obtain ⟨cell, accel, hnew, hfresh⟩ := newCell_serves f f.runtime.config.optimizer m
      obtain ⟨accel', hread⟩ := read_eq (m := { m with accel }) h hm (hfresh ev p)
      dsimp only
      rw [Run.bind_ok hnew]
      cases r with
      | ok a => exact ⟨_, Run.bind_ok hread _⟩
      | error e => exact ⟨accel', Run.bind_error hread _⟩

end Access

/-! ## Walks along places -/

namespace Walk

variable {ev : Evaluator} {f : Frame} {s : Segment} {steps : List Segment} {v u w : Value} {st : Store}

theorem step_property (path : Path) (name : String) (safe : Bool) (v : Value) :
    step ev f path (.property name safe) v none =
      EvalM.onHeap (f.errorOn path) (Member.readProperty f.host v name safe) >>= fun w => pure (w, []) := rfl

theorem step_index {n : Node} {index : Value} (hev : ev.TakesLiterals) (hn : n.kind = .literal index) (path : Path)
    (safe : Bool) (hv : v ≠ .null) : step ev f path (.index n safe) v none =
      EvalM.onHeap (f.errorOn path) (Member.readIndex v index safe) >>= fun w => pure (w, [index.typeOf]) := by
  have hnull : v.isNull = false := by
    cases v with
    | null => exact absurd rfl hv
    | _ => rfl
  unfold step
  dsimp only
  rw [hnull, hev hn]
  rfl

theorem step_index_null (path : Path) (n : Node) (safe : Bool) :
    step ev f path (.index n safe) .null none = onNull f path safe (path.text ++ "[]") >>= fun w => pure (w, []) := rfl

theorem fixed_step_null (ev : Evaluator) (f : Frame) (path : Path) (st : Store) (hs : s.Constant) :
    ∃ r, Fixed (step ev f path s .null none) st r ∧ (s.isSafe = true → r = .ok (.null, [])) ∧
      (s.isSafe = false → ∃ e, r = .error e) := by
  cases s with
  | property name safe =>
    rw [step_property]
    cases safe with
    | true => exact ⟨_, .bind (.onHeap (r := .ok .null) rfl) (.pure _), fun _ => rfl, nofun⟩
    | false => exact ⟨_, .bindError (.onHeap (r := .error (.nullReference name)) rfl), nofun, fun _ => ⟨_, rfl⟩⟩
  | index n safe =>
    rw [step_index_null]
    cases safe with
    | true => exact ⟨_, .bind (.pure _) (.pure _), fun _ => rfl, nofun⟩
    | false => exact ⟨_, .bindError (.fail _), nofun, fun _ => ⟨_, rfl⟩⟩
  | _ => cases hs

theorem fixed_step (path : Path) (hev : ev.TakesLiterals) (hs : s.Constant)
    (hl : s.lead? f.world.classes st.heap v = some u) :
    ∃ types, Fixed (step ev f path s v none) st (.ok (u, types)) := by
  obtain ⟨rfl, hsafe, rfl⟩ | ⟨p, hp, hu⟩ := Segment.lead?_cases hl
  · obtain ⟨r, hr, hok, -⟩ := fixed_step_null ev f path st hs
    rw [hok hsafe] at hr
    exact ⟨[], hr⟩
  · cases s with
    | property name safe =>
      rw [step_property]
      exact ⟨[], .bind (.onHeap (r := .ok u) (Member.readProperty_eq hp hu)) (.pure _)⟩
    | index n safe =>
      obtain ⟨index, -, hindex, -⟩ := hs
      have hv : v ≠ .null := by
        rintro rfl
        cases Segment.ref?_of_place? hp
      have hp : v.indexed? st.heap index = some p := by simpa only [Segment.place?, hindex, Option.bind_some] using hp
      rw [step_index hev (Node.kind_of_literal? hindex) path safe hv]
      exact ⟨_, .bind (.onHeap (r := .ok u) (Member.readIndex_eq hp hu)) (.pure _)⟩
    | _ => cases hs

/-- A step that leads nowhere fails, unless it meets something else than a container that has a place for it. -/
theorem fixed_step_error (path : Path) (hev : ev.TakesLiterals) (hs : s.Constant)
    (hmeets : s.meets f.world.classes st.heap v = true) (hl : s.lead? f.world.classes st.heap v = none) :
    ∃ e, Fixed (step ev f path s v none) st (.error e) := by
  by_cases hv : v = .null
  · subst hv
    obtain ⟨r, hr, -, herror⟩ := fixed_step_null ev f path st hs
    rw [Segment.lead?_null] at hl
    obtain ⟨e, rfl⟩ := herror (by simpa using hl)
    exact ⟨e, hr⟩
  · cases s with
    | property name safe =>
      obtain ⟨u, hu⟩ := Segment.exists_lead?_of_meets hv hmeets
      cases hl.symm.trans hu
    | index n safe =>
      obtain ⟨index, key, hindex, hkey⟩ := hs
      rw [step_index hev (Node.kind_of_literal? hindex) path safe hv]
      rw [Segment.lead?_of_ne_null hv, Segment.place?, hindex, Option.bind_some] at hl
      obtain ⟨e, he⟩ := Member.readIndex_error ⟨key, hkey _⟩ hv hmeets hl
      exact ⟨_, .bindError (.onHeap (r := .error e) he)⟩
    | _ => cases hs

theorem fixed_along (path : Path) (hev : ev.TakesLiterals) (hs : ∀ s ∈ steps, s.Constant)
    (hl : Segment.leadAlong? f.world.classes st.heap v steps = some w) :
    ∃ seen, Fixed (along ev f path steps v none) st (.ok (w, seen)) := by
  induction steps generalizing v with
  | nil =>
    cases hl
    exact ⟨[], .pure _⟩
  | cons s steps ih =>
    obtain ⟨u, hu, hrest⟩ := Option.bind_eq_some_iff.mp hl
    obtain ⟨hfirst, hsteps⟩ := List.forall_mem_cons.mp hs
    obtain ⟨types, hstep⟩ := fixed_step path hev hfirst hu
    obtain ⟨seen, halong⟩ := ih hsteps hrest
    exact ⟨_, .bind hstep (.bind halong (.pure _))⟩

theorem fixed_along_error (path : Path) (hev : ev.TakesLiterals) (hs : ∀ s ∈ steps, s.Constant)
    (hmeet : Segment.meetAlong f.world.classes st.heap v steps = true)
    (hl : Segment.leadAlong? f.world.classes st.heap v steps = none) :
    ∃ e, Fixed (along ev f path steps v none) st (.error e) := by
  induction steps generalizing v with
  | nil => cases hl
  | cons s steps ih =>
    obtain ⟨hfirst, hsteps⟩ := List.forall_mem_cons.mp hs
    obtain ⟨hmeets, hrest⟩ := (Bool.and_eq_true _ _).mp hmeet
    rw [Segment.leadAlong?_cons] at hl
    cases hu : s.lead? f.world.classes st.heap v with
    | none =>
      obtain ⟨e, hstep⟩ := fixed_step_error path hev hfirst hmeets hu
      exact ⟨e, .bindError hstep⟩
    | some u =>
      rw [hu] at hl hrest
      obtain ⟨types, hstep⟩ := fixed_step path hev hfirst hu
      obtain ⟨e, halong⟩ := ih hsteps hrest hl
      exact ⟨e, .bind hstep (.bindError halong)⟩

end Walk

end PathScript
