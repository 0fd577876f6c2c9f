import PathScript.Proofs.Course
import PathScript.Proofs.Lockstep.Eval

/-! # Sites in lockstep

Two evaluations in the same mode that remember the same plan the same at every
site. What is left to show is that the relation between them survives what they
note: at sites, in cells and in the registry. -/

namespace PathScript

theorem Path.nodes_container {p : Path} {n : Node} (h : n ∈ (Access.container p).nodes) : n ∈ p.nodes := by
  obtain ⟨s, hs, hn⟩ := List.mem_flatMap.mp h
  exact List.mem_flatMap.mpr ⟨s, List.mem_of_mem_take hs, hn⟩

namespace Lockstep

variable {L : Lockstep} {i : L.Index} {α : Type} {ev ev' : Evaluator} {f f' : Frame} {n : Node}

namespace Local

variable (hL : L.Local)
include hL

theorem classNamed? (hf : L.Frames i f f') {m m' : Machine} (hm : L.Alike i m m') (name : String) :
    f.classNamed? m'.store name = f.classNamed? m.store name := by
  simp only [Frame.classNamed?, hL.lookup hf hm]

theorem target (hf : L.Frames i f f') (c : Creation) (types : List Ty) :
    L.Sim i (EvalM.onStore (c.error f) (do Run.ofExcept (c.target f (← Run.get) types)))
      (EvalM.onStore (c.error f) (do Run.ofExcept (c.target f (← Run.get) types))) := by
  intro j hj m m' hm
  have htarget : c.target f m'.store types = c.target f m.store types := by
    simp only [Creation.target, hL.classNamed? (hL.frames_mono hj hf) hm]
  simp only [EvalM.onStore_apply, Run.bind_apply, Run.get_apply, htarget]
  cases c.target f m.store types with
  | ok t => exact .ok (L.le_refl j) hm
  | error e => exact .error (L.le_refl j) (L.error_refl _) fun _ => hm

section Cells

variable (hev : L.Evaluators ev ev') (hf : L.Frames i f f') {path : Path} (hs : ∀ n ∈ path.nodes, L.Inside n)
  {container : Option CellId} (hread : ∀ cell, container = some cell →
    L.Sim i (Access.read ev f (Access.container path) cell) (Access.read ev' f' (Access.container path) cell))
include hev hf hs hread

theorem writeVia (v : Value) :
    L.Sim i (Access.writeVia ev f path container v) (Access.writeVia ev' f' path container v) := by
  cases container with
  | none => exact hL.writeRoot hf v
  | some cell => exact (hread cell rfl).bind fun target => hL.writeLast hev hf hs target v

theorem readVia : L.Sim i (Access.readVia ev f path container) (Access.readVia ev' f' path container) := by
  cases container with
  | none => exact hL.readLast hev hf hs .null
  | some cell => exact (hread cell rfl).bind fun r => hL.readLast hev hf hs r

end Cells

end Local

variable (L) in
/-- A change of what is remembered that the relation survives. -/
def Harmless (g : Accelerator → Accelerator) : Prop :=
  ∀ i m m', L.Alike i m m' → L.Alike i { m with accel := g m.accel } { m' with accel := g m'.accel }

variable (L) in
/-- A change that the relation survives from an index on. -/
def HarmlessFrom (i : L.Index) (g : Accelerator → Accelerator) : Prop :=
  ∀ j m m', L.le i j → L.Alike j m m' → L.Alike j { m with accel := g m.accel } { m' with accel := g m'.accel }

theorem Harmless.from {g : Accelerator → Accelerator} (hg : L.Harmless g) (i : L.Index) : L.HarmlessFrom i g :=
  fun j m m' _ => hg j m m'

theorem sim_modifyAccel {g : Accelerator → Accelerator} (hg : L.HarmlessFrom i g) :
    L.Sim i (EvalM.modifyAccel g) (EvalM.modifyAccel g) :=
  fun j hj m m' hm => .ok (L.le_refl j) (hg j m m' hj hm)

theorem sim_noting {g : Accelerator → Accelerator} (hg : L.HarmlessFrom i g) (v : α) :
    L.Sim i (EvalM.modifyAccel g >>= fun _ => pure v) (EvalM.modifyAccel g >>= fun _ => pure v) :=
  (sim_modifyAccel hg).bind fun _ => .pure v

variable (L) in
/-- What may be done with the cell of a path, as long as only good units are put there. -/
structure Usable (i : L.Index) (classes : ClassTable) (path : Path) (cell : CellId) (Good : SpecializedUnit → Prop) :
    Prop where
  touch : ∀ {g : Accelerator → Accelerator}, (∀ a : Accelerator, a.Touched cell Good (g a)) → L.HarmlessFrom i g
  register : ∀ r, L.HarmlessFrom i fun a => (SpecializedUnit.register classes path r a).2
  registered : ∀ {j m m' r u g}, L.le i j → L.Alike j m m' →
    (SpecializedUnit.register classes path r m.accel).1 = some (u, g) → Good u

namespace Usable

variable {classes : ClassTable} {path : Path} {cell : CellId} {Good : SpecializedUnit → Prop}

theorem mono {j : L.Index} (h : L.Usable i classes path cell Good) (hj : L.le i j) : L.Usable j classes path cell Good where
  touch := fun hg k m m' hk => h.touch hg k m m' (L.le_trans hj hk)
  register := fun r k m m' hk => h.register r k m m' (L.le_trans hj hk)
  registered := fun hk => h.registered (L.le_trans hj hk)

/-- Any unit is good if the relation does not depend on what is in the cell. -/
theorem of_harmless (htouch : ∀ g, (∀ a : Accelerator, a.Touched cell (fun _ => True) (g a)) → L.Harmless g)
    (hregistry : ∀ g : UnitRegistry SpecializedUnit → UnitRegistry SpecializedUnit,
      L.Harmless fun a => { a with registry := g a.registry }) : L.Usable i classes path cell fun _ => True where
  touch := fun hg => (htouch _ hg).from i
  register := fun _ => (hregistry fun registry => (registry.provide _ _).2).from i
  registered := fun _ _ _ => trivial

end Usable

variable (L) in
/-- The evaluations are in the same mode and plan the same. -/
structure SamePlans : Prop where
  frames : ∀ {i f f'}, L.Frames i f f' → f' = f
  accel : ∀ {i m m'}, L.Alike i m m' → m'.accel = m.accel

namespace SamePlans

variable (hM : L.SamePlans)
include hM

theorem stepAccel {g : Accelerator → α × Accelerator} (hg : L.HarmlessFrom i fun a => (g a).2) :
    L.Sim i (EvalM.stepAccel g) (EvalM.stepAccel g) := by
  intro j hj m m' hm
  rw [EvalM.stepAccel_apply, EvalM.stepAccel_apply, hM.accel hm]
  have alike := hg j m m' hj hm
  rw [hM.accel hm] at alike
  exact .ok (L.le_refl j) alike

theorem lookAt {k k' : Accelerator → EvalM α}
    (hk : ∀ j m m', L.le i j → L.Alike j m m' → L.Sim j (k m.accel) (k' m.accel)) :
    L.Sim i (EvalM.accel >>= k) (EvalM.accel >>= k') := by
  simp only [EvalM.accel, bind_assoc, pure_bind]
  refine .get fun j m m' hj hm => ?_
  rw [hM.accel hm]
  exact hk j m m' hj hm

theorem look {k k' : Accelerator → EvalM α} (hk : ∀ a, L.Sim i (k a) (k' a)) :
    L.Sim i (EvalM.accel >>= k) (EvalM.accel >>= k') :=
  hM.lookAt fun _ m _ hj _ => (hk m.accel).mono hj

/-! ## Reading -/

section Read

variable (hL : L.Local) (hev : L.Evaluators ev ev') (hf : L.Frames i f f') {path : Path}
  (hs : ∀ n ∈ path.nodes, L.Inside n)

include hL hev hf hs

theorem make (hregister : ∀ r, L.HarmlessFrom i fun a => (SpecializedUnit.register f.world.classes path r a).2) :
    L.Sim i (SpecializedUnit.make ev f path) (SpecializedUnit.make ev' f' path) := by
  refine (hL.along hev hf hs (.refl _ path) .null none).bind fun r => ?_
  obtain rfl := hM.frames hf
  exact Sim.bind (hM.stepAccel (hregister r)) fun _ => .pure _

variable {cell : CellId} {Good : SpecializedUnit → Prop} (hc : L.Usable i f.world.classes path cell Good)
include hc

theorem making {reset : Accelerator → Accelerator} {keep : Option (SpecializedUnit × Nat) → Accelerator → Accelerator}
    {a : Accelerator} (hproper : (Access.Course.make reset keep).Proper cell a) :
    L.Sim i (Access.making ev f path reset keep) (Access.making ev' f' path reset keep) := by
  obtain ⟨hreset, hkeep⟩ := hproper
  have hreset : L.HarmlessFrom i reset := hc.touch fun a => (hreset a).mono nofun
  refine ((hL.along hev hf hs (.refl _ path) .null none).onError hreset).bind_from fun r j hj => ?_
  obtain rfl := hM.frames hf
  intro l hl m m' hm
  have hl := L.le_trans hj hl
  have alike := hc.register r l m m' hl hm
  rw [Run.bind_ok (EvalM.stepAccel_apply _ m), Run.bind_ok (EvalM.stepAccel_apply _ m'), hM.accel hm]
  rw [hM.accel hm] at alike
  refine sim_noting ((hc.mono hl).touch fun a => (hkeep _ a).mono ?_) r.1 l (L.le_refl l) _ _ alike
  exact fun u ⟨g, hfound⟩ => hc.registered hl hm hfound

theorem read : L.Sim i (Access.read ev f path cell) (Access.read ev' f' path cell) := by
  obtain rfl := hM.frames hf
  rw [Access.read_eq_perform, Access.read_eq_perform]
  intro j hj m m' hm
  have hfj := hL.frames_mono hj hf
  have alike := hc.touch (fun a => (Access.course_proper f' cell a).2.mono nofun) j m m' hj hm
  obtain ⟨hproper, -⟩ := Access.course_proper f' cell m.accel
  rw [Run.bind_ok (EvalM.stepAccel_apply _ m), Run.bind_ok (EvalM.stepAccel_apply _ m'), hM.accel hm]
  rw [hM.accel hm] at alike
  suffices hsim : L.Sim j ((Access.course f' cell m.accel).1.perform ev f' path)
      ((Access.course f' cell m.accel).1.perform ev' f' path) from hsim j (L.le_refl j) _ _ alike
  cases hcourse : (Access.course f' cell m.accel).1 with
  | walk => exact hL.walkRead hev hfj hs
  | run u => exact hL.unitRun hev hfj hs u
  | make reset keep =>
    rw [hcourse] at hproper
    exact hM.making hL hev hfj hs (hc.mono hj) hproper

end Read

/-! ## New values -/

theorem createVia (hL : L.Local) (hev : L.Evaluators ev ev') (hf : L.Frames i f f') {c : Creation}
    (hc : ∀ n ∈ c.args, L.Inside n) {x y : EvalM CreationSite} (hx : L.Sim i x y) :
    L.Sim i (Access.createVia ev f c x) (Access.createVia ev' f' c y) := by
  refine (evalAll hev hf hc).bind fun args => hx.bind fun site => ?_
  obtain rfl := hM.frames hf
  have made : ∀ {j} target (site : CreationSite), L.Sim j
      (EvalM.onHeap (c.error f') (Creation.make f' args target) >>= fun v => pure (v, site))
      (EvalM.onHeap (c.error f') (Creation.make f' args target) >>= fun v => pure (v, site)) :=
    fun target site => (hL.onHeap _ _).bind fun _ => .pure _
  cases site with
  | plain => exact (hL.target hf c _).bind fun target => made target _
  | cached last =>
    refine .get fun j m m' hj hm => ?_
    have hcurrent : ∀ t, c.isCurrent f' m'.store t = c.isCurrent f' m.store t := by
      intro t
      cases t <;> simp only [Creation.isCurrent, hL.classNamed? (hL.frames_mono hj hf) hm]
    simp only [hcurrent]
    split
    · exact made _ _
    · exact ((hL.target hf c _).mono hj).bind fun target => made target _

end SamePlans

/-! ## Sites -/

variable (L) in
/-- A path that is read by a cell: one that is read, or the container of one that is written. -/
inductive Kept : Path → Prop where
  | read {n : Node} {p : Path} {site : SiteId} (inside : L.Inside n) (kind : n.kind = .property p site) : Kept p
  | container {n : Node} {p : Path} {site : SiteId} (inside : L.Inside n) (target : n.target? = some (.path p site)) :
      Kept (Access.container p)

variable (L) in
/-- What is found at sites may be noted: not every frame is interpreted. -/
def Remembers (i : L.Index) : Prop := ∃ f f', L.Frames i f f' ∧ ¬f'.isInterpreted = true

variable (L) in
/-- It is known which path a cell at a site belongs to, and sites may note what they have found. -/
structure KnownCells (CellOf : L.Index → CellId → Path → Prop) : Prop extends L.SamePlans where
  read : ∀ {i m m' n p site cell}, L.Alike i m m' → L.Inside n → n.kind = .property p site →
    m.accel.reads.get? site = some cell → CellOf i cell p
  write : ∀ {i m m' n p site cell}, L.Alike i m m' → L.Inside n → n.target? = some (.path p site) →
    m.accel.writes.get? site = some (some cell) → CellOf i cell (Access.container p)
  noteRead : ∀ {i n p site cell}, L.Remembers i → L.Inside n → n.kind = .property p site → CellOf i cell p →
    L.HarmlessFrom i fun a => { a with reads := a.reads.setNew site cell }
  noteWrite : ∀ {i n p site container}, L.Remembers i → L.Inside n → n.target? = some (.path p site) →
    (container = none ↔ p.length ≤ 1) → (∀ cell, container = some cell → CellOf i cell (Access.container p)) →
    L.HarmlessFrom i fun a => { a with writes := a.writes.setNew site container }
  /-- What is noted of anything but paths does not matter. -/
  note : ∀ {i} {g : Accelerator → Accelerator}, L.Remembers i → ∀ (_same : ∀ a, (g a).cells = a.cells ∧
    (g a).registry = a.registry ∧ (g a).ticks = a.ticks ∧ (g a).reads = a.reads ∧ (g a).writes = a.writes :=
      by exact fun _ => ⟨rfl, rfl, rfl, rfl, rfl⟩), L.HarmlessFrom i g

namespace KnownCells

variable {CellOf : L.Index → CellId → Path → Prop} (hM : L.KnownCells CellOf) (hL : L.Local)
  (hcell : ∀ {i f f' p} {α : Type} {k k' : CellId → EvalM α}, L.Remembers i → L.Frames i f f' → L.Kept p → ∀ mode,
    (∀ j cell, L.le i j → CellOf j cell p → L.Sim j (k cell) (k' cell)) →
    L.Sim i (Access.newCell f mode >>= k) (Access.newCell f' mode >>= k'))
  (hread : ∀ {i ev ev' f f' path cell}, L.Remembers i → L.Evaluators ev ev' → L.Frames i f f' →
    (∀ n ∈ path.nodes, L.Inside n) → CellOf i cell path →
    L.Sim i (Access.read ev f path cell) (Access.read ev' f' path cell))
  {path : Path} {site : SiteId} (hev : L.Evaluators ev ev') (hf : L.Frames i f f') (hn : L.Inside n)
include hM hL hf hn

section Paths

include hread hev

/-- A path is written by a container, which is then noted at the site. -/
theorem writeNoting (hr : L.Remembers i) (ht : n.target? = some (.path path site)) {container : Option CellId}
    (hshort : container = none ↔ path.length ≤ 1)
    (hcellOf : ∀ cell, container = some cell → CellOf i cell (Access.container path)) (v : Value) :
    let note : EvalM Unit := EvalM.modifyAccel fun a => { a with writes := a.writes.setNew site container }
    L.Sim i (Access.writeVia ev f path container v >>= fun stored => note >>= fun _ => pure stored)
      (Access.writeVia ev' f' path container v >>= fun stored => note >>= fun _ => pure stored) := by
  have hs : ∀ m ∈ path.nodes, L.Inside m := fun m hm => hL.inside_own hn (Node.mem_own_of_target ht hm)
  refine (hL.writeVia hev hf hs (fun cell hc => ?_) v).bind fun stored =>
    sim_noting (hM.noteWrite hr hn ht hshort hcellOf) _
  exact hread hr hev hf (fun m hm => hs m (Path.nodes_container hm)) (hcellOf cell hc)

theorem readForUpdate (hu : n.updated? = some (.path path site)) :
    L.Sim i (Access.readForUpdate ev f path site) (Access.readForUpdate ev' f' path site) := by
  obtain rfl := hM.frames hf
  have ht := Node.target_of_updated hu
  have hs : ∀ m ∈ path.nodes, L.Inside m := fun m hm => hL.inside_own hn (Node.mem_own_of_target ht hm)
  refine .otherwise (hL.walkRead hev hf hs) fun hmode => hM.lookAt fun j m m' hj hm => ?_
  have hfj := hL.frames_mono hj hf
  cases hsite : m.accel.writes.get? site with
  | some container =>
    refine hL.readVia hev hfj hs fun cell hc => ?_
    exact hread ⟨_, _, hfj, hmode⟩ hev hfj (fun m hm => hs m (Path.nodes_container hm)) (hM.write hm hn ht (hc ▸ hsite))
  | none => exact hL.walkRead hev hfj hs

include hcell

theorem readPath (hk : n.kind = .property path site) :
    L.Sim i (Access.readPath ev f path site) (Access.readPath ev' f' path site) := by
  obtain rfl := hM.frames hf
  have hs : ∀ m ∈ path.nodes, L.Inside m := fun m hm => hL.inside_own hn (by simpa [Node.own, Node.children, hk] using hm)
  refine .otherwise (hL.walkRead hev hf hs) fun hmode => hM.lookAt fun j m m' hj hm => ?_
  have hfj := hL.frames_mono hj hf
  cases hsite : m.accel.reads.get? site with
  | some cell => exact hread ⟨_, _, hfj, hmode⟩ hev hfj hs (hM.read hm hn hk hsite)
  | none =>
    refine hcell ⟨_, _, hfj, hmode⟩ hfj (.read hn hk) _ fun k cell hk' hcellOf => ?_
    have hfk := hL.frames_mono hk' hfj
    have hr : L.Remembers k := ⟨_, _, hfk, hmode⟩
    exact (hread hr hev hfk hs hcellOf).bind fun v => sim_noting (hM.noteRead hr hn hk hcellOf) _

theorem writePath (ht : n.target? = some (.path path site)) (v : Value) :
    L.Sim i (Access.writePath ev f path site v) (Access.writePath ev' f' path site v) := by
  obtain rfl := hM.frames hf
  have hs : ∀ m ∈ path.nodes, L.Inside m := fun m hm => hL.inside_own hn (Node.mem_own_of_target ht hm)
  have hs' : ∀ m ∈ (Access.container path).nodes, L.Inside m := fun m hm => hs m (Path.nodes_container hm)
  refine .otherwise (.ite Iff.rfl ?_ (hL.writeRoot hf v)) fun hmode => hM.lookAt fun j m m' hj hm => ?_
  · exact (hL.walkRead hev hf hs').bind fun target => hL.writeLast hev hf hs target v
  have hfj := hL.frames_mono hj hf
  cases hsite : m.accel.writes.get? site with
  | some container =>
    refine hL.writeVia hev hfj hs (fun cell hc => ?_) v
    exact hread ⟨_, _, hfj, hmode⟩ hev hfj hs' (hM.write hm hn ht (hc ▸ hsite))
  | none =>
    unfold Access.newContainerCell
    -- Only a path of several segments has a container, and so a cell.
    by_cases hlong : 1 < path.length
    · simp only [gt_iff_lt, hlong, if_true, bind_assoc, pure_bind]
      refine hcell ⟨_, _, hfj, hmode⟩ hfj (.container hn ht) _ fun k cell hk hcellOf => ?_
      have hfk := hL.frames_mono hk hfj
      refine hM.writeNoting hL hread hev hfk hn ⟨_, _, hfk, hmode⟩ ht (by simp [Nat.not_le.mpr hlong]) ?_ v
      rintro _ ⟨⟩
      exact hcellOf
    · simp only [gt_iff_lt, hlong, if_false, pure_bind]
      exact hM.writeNoting hL hread hev hfj hn ⟨_, _, hfj, hmode⟩ ht (by simpa using hlong) (by simp) v

end Paths

theorem buildCollection {literal : CollectionLiteral} (hev : L.Evaluators ev ev') (hk : n.kind = .collection literal site) :
    L.Sim i (Access.buildCollection ev f literal site) (Access.buildCollection ev' f' literal site) := by
  obtain rfl := hM.frames hf
  have built : L.Sim i (literal.build ev f') (literal.build ev' f') :=
    hL.build hev hf fun m hm => hL.inside_own hn (by simpa [Node.own, Node.children, hk] using hm)
  refine .otherwise built fun hmode => hM.look fun a => ?_
  cases a.collections.get? site with
  | some template =>
    cases template with
    | some t => exact hL.stepHeap t.stamp
    | none => exact built
  | none =>
    refine built.bind fun v => .get fun j m m' hj hm => ?_
    rw [hL.heap hm]
    exact sim_noting (hM.note ⟨_, _, hL.frames_mono hj hf, hmode⟩) _

theorem create {creation : Creation} (hev : L.Evaluators ev ev') (hk : n.kind = .newObject creation site) :
    L.Sim i (Access.create ev f creation site) (Access.create ev' f' creation site) := by
  obtain rfl := hM.frames hf
  have hc : ∀ m ∈ creation.args, L.Inside m := fun m hm => hL.inside_own hn (by simpa [Node.own, Node.children, hk] using hm)
  refine .otherwise ?_ fun hmode => hM.look fun a => ?_
  · refine Sim.bind ?_ fun r => .pure _
    refine (evalAll hev hf hc).bind fun args => ?_
    exact (hL.target hf creation _).bind fun target => (hL.onHeap _ _).bind fun v => .pure _
  · cases a.creations.get? site with
    | some _ =>
      refine (hM.createVia hL hev hf hc (hM.look fun a => .pure _)).bind fun r => ?_
      exact sim_noting (hM.note ⟨_, _, hf, hmode⟩) _
    | none =>
      refine (hM.createVia hL hev hf hc (.pure _)).bind fun r => ?_
      exact sim_noting (hM.note ⟨_, _, hf, hmode⟩) _

omit hL hn in
theorem shapeOf (v : Value) : L.Sim i (Eval.shapeOf f site v) (Eval.shapeOf f' site v) := by
  obtain rfl := hM.frames hf
  refine .otherwise (.pure _) fun hmode => hM.look fun a => ?_
  cases a.shapes.get? site with
  | some known => exact .pure _
  | none =>
    cases IterShape.of? v with
    | none => exact .pure _
    | some shape => exact sim_noting (hM.note ⟨_, _, hf, hmode⟩) _

/-- The pattern that was compiled with the program is the same for both. -/
theorem regexMatch {subject pattern : Node} {compiled : Option Regex} (hev : L.Evaluators ev ev')
    (hk : n.kind = .regexMatch subject pattern compiled) :
    L.Sim i (Eval.regexMatch ev f n.info subject pattern compiled)
      (Eval.regexMatch ev' f' n.info subject pattern compiled) := by
  obtain rfl := hM.frames hf
  have hc : ∀ m ∈ n.own, L.Inside m := fun m hm => hL.inside_own hn hm
  have hpattern : L.Inside pattern := hc pattern (by simp [Node.own, Node.children, hk])
  refine (hev.sim hf (hc subject (by simp [Node.own, Node.children, hk]))).bind fun v => .ite Iff.rfl (.pure _) ?_
  refine (hL.query fun h => v.text h).bind fun text => ?_
  cases f'.mode with
  | interpreted => exact hL.matchPattern hev hf hpattern n.info text
  | accelerated =>
    cases compiled with
    | some r => exact .pure _
    | none => exact hL.matchPattern hev hf hpattern n.info text

omit hf hn in
include hcell hread in
/-- Sites do alike, if making a cell and reading by it do. -/
theorem sites : L.Sites where
  readPath := hM.readPath hL hcell hread
  writePath := hM.writePath hL hcell hread
  readForUpdate := hM.readForUpdate hL hread
  buildCollection := fun hev hf hn => hM.buildCollection hL hf hn hev
  create := fun hev hf hn => hM.create hL hf hn hev
  shapeOf := fun hf _ _ => hM.shapeOf hf
  regexMatch := fun hev hf hn => hM.regexMatch hL hf hn hev

end KnownCells

variable (L) in
/-- The evaluations are in the same mode and remember the same, whatever sites note. -/
structure SameMemory : Prop extends L.SamePlans where
  note : ∀ {g : Accelerator → Accelerator},
    (∀ a, (g a).cells = a.cells ∧ (g a).registry = a.registry ∧ (g a).ticks = a.ticks) → L.Harmless g

namespace SameMemory

variable (hM : L.SameMemory)
include hM

theorem knownCells : L.KnownCells fun _ _ _ => True where
  toSamePlans := hM.toSamePlans
  read := fun _ _ _ _ => trivial
  write := fun _ _ _ _ => trivial
  noteRead := fun _ _ _ _ => (hM.note (by exact fun _ => ⟨rfl, rfl, rfl⟩)).from _
  noteWrite := fun _ _ _ _ _ => (hM.note (by exact fun _ => ⟨rfl, rfl, rfl⟩)).from _
  note := fun _ hg => (hM.note fun a => ⟨(hg a).1, (hg a).2.1, (hg a).2.2.1⟩).from _

theorem sites (hL : L.Local)
    (hcell : ∀ {i f f'}, L.Frames i f f' → ∀ mode, L.Sim i (Access.newCell f mode) (Access.newCell f' mode))
    (hread : ∀ {i ev ev' f f' path}, L.Evaluators ev ev' → L.Frames i f f' → (∀ n ∈ path.nodes, L.Inside n) → ∀ cell,
      L.Sim i (Access.read ev f path cell) (Access.read ev' f' path cell)) : L.Sites :=
  hM.knownCells.sites hL (fun _ hf _ mode hk => (hcell hf mode).bind_from fun cell j hj => hk j cell hj trivial)
    fun _ hev hf hs _ => hread hev hf hs _

/-- Sites do alike, if the relation does not depend on what is remembered at all. -/
theorem sites_of_harmless (hL : L.Local) (hg : ∀ g, L.Harmless g) : L.Sites := by
  refine hM.sites hL (fun hf mode => ?_) fun hev hf hs cell =>
    hM.read hL hev hf hs (.of_harmless (fun _ _ => hg _) fun _ => hg _)
  rw [hM.frames hf, Access.newCell_eq]
  exact hM.stepAccel ((hg _).from _)

end SameMemory

end Lockstep

end PathScript
