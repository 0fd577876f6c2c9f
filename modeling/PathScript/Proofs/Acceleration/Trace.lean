import PathScript.Proofs.Acceleration.History

/-! # Traces in memory

That both modes agree needs texts of paths to be unambiguous. That a cell belongs
to a path, and that its unit was made for the text of that path, does not: it is
an invariant of every evaluation, in either mode. Where a text tells the form of
a path by itself, a unit that was made for it can then be used, whatever other
paths there are. -/

namespace PathScript

/-- An evaluation beside itself, with the path of every cell. -/
def tracing (world : World) (trees : List Node) : Lockstep :=
  .self (· <+: ·) List.prefix_refl List.IsPrefix.trans (fun paths m => Traced world.classes trees paths m.accel)
    (fun _ f => f.world = world) (fun _ => True) (Node.Among trees)

namespace Tracing

open Lockstep

variable {world : World} {trees : List Node} {α : Type}

theorem sameStore (hfun : ∀ fn ∈ world.functions, Node.Among trees fn.body) : (tracing world trees).SameStore :=
  sameStore_self List.prefix_refl List.IsPrefix.trans (Traced world.classes trees) (fun w _ _ => w = world)
    (fun ⟨t, ht, ho⟩ hc => ⟨t, ht, ho.child (Node.own_subset_children hc)⟩) fun h hfn => hfun _ (h ▸ hfn)

theorem harmlessFrom {paths : List Path} {g : Accelerator → Accelerator}
    (hg : ∀ more a, paths <+: more → Traced world.classes trees more a → Traced world.classes trees more (g a)) :
    (tracing world trees).HarmlessFrom paths g := by
  rintro more m _ hle ⟨rfl, h⟩
  exact ⟨rfl, hg more _ hle h⟩

theorem samePlans : (tracing world trees).SamePlans where
  frames := fun h => h.1
  accel := fun h => by rw [h.1]

theorem usable {paths : List Path} {cell : CellId} {p : Path} (hcell : paths[cell]? = some p) :
    (tracing world trees).Usable paths world.classes p cell fun u => u.MadeFor world.classes trees p.text where
  touch := fun hg => harmlessFrom fun _ a hle h => h.touched (getElem?_of_grown hcell hle) (hg a) fun _ => id
  register := fun r => harmlessFrom fun _ _ hle h =>
    (h.provide (h.learned p (List.mem_of_getElem? (getElem?_of_grown hcell hle))) r.2 r.1).1
  registered := fun {_ _ _ r _ _} hle h hfound =>
    (h.2.provide (h.2.learned p (List.mem_of_getElem? (getElem?_of_grown hcell hle))) r.2 r.1).2 _ _ hfound

theorem learned_of_kept {p : Path} (h : (tracing world trees).Kept p) : p.Learned trees := by
  cases h with
  | read inside kind => exact .read inside kind
  | container inside target => exact .container inside target

theorem sim_newCell {paths : List Path} {f f' : Frame} {p : Path} {k k' : CellId → EvalM α}
    (hf : (tracing world trees).Frames paths f f') (hp : p.Learned trees) (mode : OptimizerMode)
    (hk : ∀ more cell, paths <+: more → more[cell]? = some p → (tracing world trees).Sim more (k cell) (k' cell)) :
    (tracing world trees).Sim paths (Access.newCell f mode >>= k) (Access.newCell f' mode >>= k') := by
  obtain ⟨rfl, -⟩ := hf
  rw [Access.newCell_eq]
  rintro (more : List Path) hle _ m ⟨rfl, h⟩
  have hgrown : more <+: more ++ [p] := List.prefix_append ..
  have halloc := h.alloc hp (Access.unit?_firstCell f' m.accel mode) (m.accel.ticks + (Access.firstCell f' m.accel mode).2)
  exact (hk _ _ (hle.trans hgrown) (h.getElem?_alloc) _ (List.prefix_refl _) _ _ ⟨rfl, halloc⟩).weaken hgrown

theorem traced_of_leaves {x : EvalM α} {m m' : Machine} (hsim : ∀ paths, (tracing world trees).Sim paths x x)
    (hm : ∃ paths, Traced world.classes trees paths m.accel) (left : (x m).Leaves m') :
    ∃ paths, Traced world.classes trees paths m'.accel := by
  obtain ⟨paths, htraced⟩ := hm
  obtain ⟨more, -, -, -, hmore⟩ := (hsim paths paths (List.prefix_refl _) m m ⟨rfl, htraced⟩).leaves_left trivial left
  exact ⟨more, hmore⟩

section Programs

variable {lo hi : SiteId} (hg : Grown lo hi trees)
include hg

theorem knownCells : (tracing world trees).KnownCells fun (paths : List Path) cell p => paths[cell]? = some p where
  toSamePlans := samePlans
  read := fun h hn hk hsite => h.2.getElem?_of_read hg hn hk hsite
  write := fun h hn ht hsite => by
    cases h.2.hasContainer_of_write hg hn ht hsite with
    | some long cellOf => exact cellOf
  noteRead := fun _ hn hk hcell => harmlessFrom fun _ _ hle h => h.noteRead hn hk (getElem?_of_grown hcell hle)
  noteWrite := fun {_ _ _ _ container} _ hn ht hshort hcell => harmlessFrom fun _ _ hle h => h.noteWrite hn ht <| by
    cases container with
    | none => exact .none (hshort.mp rfl)
    | some cell =>
      exact .some (Nat.not_le.mp fun hle => nomatch hshort.mpr hle) (getElem?_of_grown (hcell cell rfl) hle)
  note := fun _ hg => harmlessFrom fun _ a _ h => by
    obtain ⟨hcells, hregistry, -, hreads, hwrites⟩ := hg a
    exact ⟨hcells ▸ h.size, h.learned, hcells ▸ h.cells, hregistry ▸ h.units, hreads ▸ h.reads, hwrites ▸ h.writes⟩

variable (hfun : ∀ fn ∈ world.functions, Node.Among trees fn.body)
include hfun

theorem sites : (tracing world trees).Sites :=
  (knownCells hg).sites (sameStore hfun).lawful.toLocal (fun _ hf hp => sim_newCell hf (learned_of_kept hp))
    fun _ hev hf hs hcell => by
      obtain ⟨rfl, rfl⟩ := hf
      exact samePlans.read (sameStore hfun).lawful.toLocal hev ⟨rfl, rfl⟩ hs (usable hcell)

end Programs

end Tracing

namespace Engine

variable {e : Engine} {trees : List Node}

theorem lasting_traced : Lasting fun classes trees a => ∃ paths, Traced classes trees paths a where
  fresh := fun _ ceiling => ⟨[], .fresh ceiling⟩
  subset := fun ⟨paths, h⟩ hs => ⟨paths, h.subset hs⟩
  withRegistry := fun ⟨paths, h⟩ hr => ⟨paths, h.withRegistry hr⟩
  program := fun {e trees _ root} h hm hroot runtime ctx this vars options left => by
    let x := Eval.program options.fuel (e.frameOf runtime ctx this vars options.mode options.watched) root
    have hsim : ∀ paths, (tracing e.world trees).Sim paths x x := fun _ =>
      (Tracing.sameStore h.bodies).lawful.program (Tracing.sites h.grown h.bodies) _ ⟨rfl, rfl⟩
        ⟨root, hroot, .here _⟩
    exact Tracing.traced_of_leaves (m := (e.started runtime vars).machine) hsim hm left
  setter := fun {e trees _ s} h hm hs ctx vars v fuel left => by
    let f := e.frameOf s.runtime ctx .null vars .accelerated false
    have hev := (Tracing.sameStore h.bodies).lawful.node (Tracing.sites h.grown h.bodies) fuel
    have hsim : ∀ paths, (tracing e.world trees).Sim paths (Access.writePath (Eval.node fuel) f s.path s.site v)
        (Access.writePath (Eval.node fuel) f s.path s.site v) := fun _ =>
      (Tracing.sites h.grown h.bodies).writePath hev ⟨rfl, rfl⟩ ⟨s.node, hs, .here _⟩ rfl v
    exact Tracing.traced_of_leaves (m := (e.started s.runtime vars).machine) hsim hm left

/-- After any history, cells and units belong to the texts they are used for. -/
theorem History.traced (h : History e trees) :
    e.Grounded trees ∧ ∃ paths, Traced e.world.classes trees paths e.machine.accel :=
  h.keeps lasting_traced

end Engine

end PathScript
