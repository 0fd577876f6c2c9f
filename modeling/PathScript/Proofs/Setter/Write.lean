import PathScript.Proofs.Acceleration.Sites
import PathScript.Proofs.Setter.Name

/-! # Writing through paths

A path that goes on from a name with properties and literal indices leads from
place to place, and writing through it stores at the last of them. In a heap
without cycles the way there does not change, so that the path leads to what was
stored. -/

namespace PathScript

/-! ## Writing at the end of a path -/

namespace Walk

variable {ev : Evaluator} {f : Frame} {path : Path} {s : Segment} {target v w : Value} {m m' : Machine}

/-- What a write on the value that a path leads to does: through a step that is safe on `null` nothing, else it stores at
the place of the step. -/
theorem writeLast_eq_ok (hev : ev.TakesLiterals) (hkeeps : f.runtime.converter.Keeps) (hlast : path.segments.getLast? = some s)
    (hs : s.Constant) (hmeets : s.meets f.world.classes m.store.heap target = true)
    (hw : writeLast ev f path target v m = .ok w m') : (target = .null ∧ s.isSafe = true ∧ w = .null ∧ m' = m) ∨
      ∃ h p, s.place? f.world.classes m.store.heap target = some p ∧ m.store.heap.Extends h ∧
        (m.store.heap.at? p).isSome = true ∧ m' = m.withHeap (h.put w p) := by
  unfold writeLast at hw
  rw [hlast] at hw
  cases s with
  | property name safe =>
    dsimp only at hw
    split at hw
    next hnull =>
      cases hw
      obtain ⟨hsafe, hnull⟩ := (Bool.and_eq_true _ _).mp hnull
      exact .inl ⟨Segment.eq_null_of_isNull hnull, hsafe, rfl, rfl⟩
    next =>
      obtain ⟨h', hwrite, rfl⟩ := EvalM.onHeap_eq_ok.mp hw
      obtain ⟨h, p, hp, hext, hat, rfl⟩ := Member.writeProperty_eq_ok f.host hkeeps hmeets hwrite
      exact .inr ⟨h, p, hp, hext, hat, rfl⟩
  | index n safe =>
    obtain ⟨index, -, hindex, -⟩ := hs
    dsimp only at hw
    split at hw
    next hnull =>
      cases hw
      obtain ⟨hsafe, hnull⟩ := (Bool.and_eq_true _ _).mp hnull
      exact .inl ⟨Segment.eq_null_of_isNull hnull, hsafe, rfl, rfl⟩
    next =>
      rw [hev (Node.kind_of_literal? hindex), pure_bind] at hw
      obtain ⟨h', hwrite, rfl⟩ := EvalM.onHeap_eq_ok.mp hw
      obtain ⟨p, hp, hat, rfl, -⟩ := Member.writeIndex_eq_ok hmeets hwrite
      exact .inr ⟨_, p, by rw [Segment.place?, hindex]; exact hp, .refl _, hat, rfl⟩
  | _ => cases hs

end Walk

/-! ## Reading back -/

namespace Variables

variable {vars : Variables} {classes : ClassTable} {st : Store} {h : Heap} {ctx v target : Value} {name : String}
  {s : Segment} {steps : List Segment} {q : Place} {r : Ref}

/-- A write to a container that a name leads to leaves the name as it was. -/
theorem name?_put (hacyclic : st.heap.Acyclic) (hext : st.heap.Extends h) (hv : vars.name? classes st ctx name = some v)
    (hr : v.ref? = some r) (hreach : Relation.ReflTransGen st.heap.Holds r q.ref) (x : Value) :
    vars.name? classes { st with heap := h.put x q } ctx name = some v := by
  have hsame : vars.slot? { st with heap := h.put x q } name = vars.slot? st name := rfl
  cases hslot : vars.slot? st name with
  | some slot =>
    rw [name?_of_slot hslot] at hv
    exact (name?_of_slot (hsame.trans hslot)).trans hv
  | none =>
    rw [name?_of_none hslot] at hv
    obtain ⟨p, hp, hat⟩ := Option.bind_eq_some_iff.mp hv
    have hne : q.ref ≠ p.ref := hacyclic.ne_of_holds ⟨p, v, rfl, hat, hr⟩ hreach
    have hnamed := Value.named?_put hp (by rw [hat]; rfl) hext hne x
    refine (name?_of_none (hsame.trans hslot)).trans (Option.bind_eq_some_iff.mpr ⟨p, hnamed, ?_⟩)
    rw [Heap.at?_put_of_ne (ne_of_apply_ne Place.ref hne), hext.at?_eq hat]

theorem lead?_put (hacyclic : st.heap.Acyclic) (hext : st.heap.Extends h) (hs : ∀ s ∈ steps, s.Constant) (hlast : s.Constant)
    (hv : vars.name? classes st ctx name = some v) (hl : Segment.leadAlong? classes st.heap v steps = some target)
    (hq : s.place? classes st.heap target = some q) (hat : (st.heap.at? q).isSome = true) (x : Value) :
    (vars.name? classes { st with heap := h.put x q } ctx name).bind
      (Segment.leadAlong? classes (h.put x q) · (steps ++ [s])) = some x := by
  have href := Segment.ref?_of_place? hq
  obtain ⟨r, hr, hreach⟩ := Segment.reaches_of_leadAlong? hl href
  obtain ⟨u, hu⟩ := Option.isSome_iff_exists.mp hat
  have hend : s.lead? classes (h.put x q) target = some x := by
    refine Segment.lead?_of_place (p := q) ?_ (Heap.at?_put ?_ x)
    · rw [Segment.place?_put hlast, Segment.place?_of_extends hlast hext hq]
    · rw [hext.at?_eq hu]
      rfl
  rw [name?_put hacyclic hext hv hr hreach, Option.bind_some, Segment.leadAlong?_append,
    Segment.leadAlong?_put hacyclic hext hs hl href, Option.bind_some, Segment.leadAlong?_cons, hend]
  rfl

end Variables

/-! ## Writing through a path -/

/-- What is met on a path with a step at its end. -/
structure Variables.Meets (vars : Variables) (classes : ClassTable) (st : Store) (ctx : Value) (library : ClassLibrary)
    (name : String) (steps : List Segment) (s : Segment) : Prop where
  root : vars.meetsName classes st ctx name = true
  known : vars.name? classes st ctx name = none → library.get? name = none
  along : ∀ v, vars.name? classes st ctx name = some v → Segment.meetAlong classes st.heap v steps = true
  last : ∀ v target, vars.name? classes st ctx name = some v → Segment.leadAlong? classes st.heap v steps = some target →
    s.meets classes st.heap target = true

theorem Variables.meets_of_append {vars : Variables} {classes : ClassTable} {st : Store} {ctx : Value} {library : ClassLibrary}
    {p : Path} {name : String} {steps : List Segment} {s : Segment} (hp : p.segments = .root name :: (steps ++ [s]))
    (h : vars.meets classes st ctx library p = true) : vars.Meets classes st ctx library name steps s := by
  simp only [meets, hp, Bool.and_eq_true] at h
  obtain ⟨hname, h⟩ := h
  cases hv : vars.name? classes st ctx name with
  | none =>
    rw [hv] at h
    have hlibrary : library.get? name = none := by simpa using h
    exact ⟨hname, fun _ => hlibrary, fun v hv' => (nomatch hv.symm.trans hv'), fun v _ hv' => (nomatch hv.symm.trans hv')⟩
  | some v =>
    rw [hv] at h
    simp only [Segment.meetAlong_append, Bool.and_eq_true] at h
    obtain ⟨halong, hlast⟩ := h
    refine ⟨hname, fun hnone => (nomatch hv.symm.trans hnone), fun v' hv' => ?_, fun v' target hv' hl => ?_⟩
    · cases hv.symm.trans hv'
      exact halong
    · cases hv.symm.trans hv'
      rw [hl] at hlast
      exact ((Bool.and_eq_true _ _).mp hlast).1

namespace Access

variable {ev : Evaluator} {f : Frame} {vars : Variables} {p : Path} {v w target : Value} {m m' : Machine} {name : String}
  {steps : List Segment} {s : Segment} {cell : CellId}

/-- A reading by a cell gives what its path leads to, and changes no more than what is remembered. -/
theorem read_eq_ok (hev : ev.TakesLiterals) (hframe : f.Outer vars m.store) (hp : p.segments = .root name :: steps)
    (hs : ∀ s ∈ steps, s.Constant) (hmeets : vars.Meets f.world.classes m.store f.ctx f.runtime.library name steps s)
    (hserves : Serves ev f p m.accel cell) (hread : read ev f p cell m = .ok target m') :
    ∃ accel v, m' = { m with accel } ∧ vars.name? f.world.classes m.store f.ctx name = some v ∧
      Segment.leadAlong? f.world.classes m.store.heap v steps = some target := by
  cases hl : (vars.name? f.world.classes m.store f.ctx name).bind
      (Segment.leadAlong? f.world.classes m.store.heap · steps) with
  | none =>
    obtain ⟨e, hfixed⟩ := hframe.fixed_walk_error p hev hs hmeets.root hmeets.known hmeets.along hl
    rw [← hp] at hfixed
    obtain ⟨accel, herror⟩ := read_eq hfixed rfl hserves
    cases herror.symm.trans hread
  | some u =>
    obtain ⟨v, hv, hl⟩ := Option.bind_eq_some_iff.mp hl
    obtain ⟨seen, hfixed⟩ := hframe.fixed_walk p hev hs hv hl
    rw [← hp] at hfixed
    obtain ⟨accel, hok⟩ := read_eq hfixed rfl hserves
    cases hok.symm.trans hread
    exact ⟨accel, v, rfl, hv, hl⟩

/-- The cell for the container of a path that is written, which a path of one segment does not have, serves it. -/
structure ServesWrite (ev : Evaluator) (f : Frame) (p : Path) (a : Accelerator) (container : Option CellId) : Prop where
  short : container = none ↔ p.length ≤ 1
  serves : ∀ {cell}, container = some cell → Serves ev f (Access.container p) a cell

/-- What was written through a path by a cell is where the path leads. -/
theorem writeVia_eq_ok (hev : ev.TakesLiterals) (hframe : f.Outer vars m.store) (hkeeps : f.runtime.converter.Keeps)
    (hacyclic : m.store.heap.Acyclic) (hp : p.segments = .root name :: steps)
    (hs : ∀ s ∈ steps, s.Constant) (hmeets : vars.meets f.world.classes m.store f.ctx f.runtime.library p = true)
    {container : Option CellId} (hserves : ServesWrite ev f p m.accel container) (hw : writeVia ev f p container v m = .ok w m') :
    vars.lead? f.world.classes m'.store f.ctx p = some w ∧ vars.Live m'.store := by
  have hlength : p.length = steps.length + 1 := by rw [Path.length, hp, List.length_cons]
  obtain rfl | ⟨init, s, rfl⟩ := List.eq_nil_or_concat' steps
  · obtain rfl := hserves.short.mpr (by rw [hlength]; decide)
    have hmeetsName : vars.meetsName f.world.classes m.store f.ctx name = true := by
      simp only [Variables.meets, hp, Bool.and_eq_true] at hmeets
      exact hmeets.1
    rw [writeVia, Walk.writeRoot, hp] at hw
    obtain ⟨st, hstored, rfl⟩ := EvalM.onStore_eq_ok.mp hw
    obtain ⟨hholds, hlive⟩ := hframe.storeName_eq_ok hkeeps hmeetsName hstored
    refine ⟨?_, hlive⟩
    rw [Variables.lead?, hp]
    exact Option.bind_eq_some_iff.mpr ⟨w, hholds, rfl⟩
  · obtain ⟨cell, rfl⟩ : ∃ cell, container = some cell := by
      refine Option.ne_none_iff_exists'.mp fun hnone => ?_
      have hshort := hserves.short.mp hnone
      rw [hlength, List.length_append, List.length_singleton] at hshort
      omega
    have hsegments : (Access.container p).segments = .root name :: init := by
      rw [p.segments_container, hp, ← List.cons_append, List.dropLast_concat]
    have hlast : p.segments.getLast? = some s := by rw [hp, ← List.cons_append, List.getLast?_concat]
    obtain ⟨hinit, hend⟩ := List.forall_mem_append.mp hs
    have hend := hend s (List.mem_singleton_self s)
    have hmeets := Variables.meets_of_append hp hmeets
    obtain ⟨target, m₁, hread, hwrite⟩ := Run.bind_eq_ok.mp hw
    obtain ⟨accel, u, rfl, hu, hl⟩ := read_eq_ok hev hframe hsegments hinit hmeets (hserves.serves rfl) hread
    rw [Variables.lead?, hp]
    obtain ⟨rfl, hsafe, rfl, rfl⟩ | ⟨h, q, hq, hext, hat, rfl⟩ :=
      Walk.writeLast_eq_ok (m := { m with accel }) hev hkeeps hlast hend (hmeets.last u target hu hl) hwrite
    · refine ⟨Option.bind_eq_some_iff.mpr ⟨u, hu, ?_⟩, hframe.live⟩
      rw [Segment.leadAlong?_append, hl, Option.bind_some, Segment.leadAlong?_cons, Segment.lead?_null, if_pos hsafe]
      rfl
    · exact ⟨Variables.lead?_put hacyclic hext hinit hend hu hl hq hat w, hframe.live.withHeap _⟩

theorem newContainerCell_eq (ev : Evaluator) (f : Frame) (mode : OptimizerMode) (p : Path) (m : Machine) :
    ∃ container accel, newContainerCell f mode p m = .ok container { m with accel } ∧ ServesWrite ev f p accel container := by
  unfold newContainerCell
  split
  next hlong =>
    obtain ⟨cell, accel, hnew, hfresh⟩ := newCell_serves f mode m
    refine ⟨some cell, accel, Run.bind_ok hnew _, ⟨nofun, fun hshort => by omega⟩, fun hcell => ?_⟩
    cases hcell
    exact hfresh ev _
  next hshort => exact ⟨none, m.accel, rfl, ⟨fun _ => by omega, fun _ => rfl⟩, nofun⟩

/-- What was written through a path at its site is where the path leads. -/
theorem writePath_eq_ok (hev : ev.TakesLiterals) (hmode : f.isInterpreted = false) (hframe : f.Outer vars m.store)
    (hkeeps : f.runtime.converter.Keeps) (hacyclic : m.store.heap.Acyclic) (hp : p.segments = .root name :: steps)
    (hs : ∀ s ∈ steps, s.Constant) (hmeets : vars.meets f.world.classes m.store f.ctx f.runtime.library p = true)
    {site : SiteId} (hserves : ∀ container, m.accel.writes.get? site = some container → ServesWrite ev f p m.accel container)
    (hw : writePath ev f p site v m = .ok w m') :
    vars.lead? f.world.classes m'.store f.ctx p = some w ∧ vars.Live m'.store := by
  have haccel : EvalM.accel m = .ok m.accel m := rfl
  rw [writePath, if_neg (by rw [hmode]; decide), Run.bind_ok haccel] at hw
  cases hsite : m.accel.writes.get? site with
  | some container =>
    rw [hsite] at hw
    exact writeVia_eq_ok hev hframe hkeeps hacyclic hp hs hmeets (hserves container hsite) hw
  | none =>
    rw [hsite] at hw
    obtain ⟨container, accel, hnew, hfresh⟩ := newContainerCell_eq ev f f.runtime.config.optimizer p m
    dsimp only at hw
    rw [Run.bind_ok hnew] at hw
    obtain ⟨stored, m₁, hvia, hrest⟩ := Run.bind_eq_ok.mp hw
    cases hrest
    have hleads := writeVia_eq_ok (m := { m with accel }) hev hframe hkeeps hacyclic hp hs hmeets hfresh hvia
    exact hleads

end Access

end PathScript
