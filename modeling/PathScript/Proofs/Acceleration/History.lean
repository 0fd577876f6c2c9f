import PathScript.Engine
import PathScript.Proofs.Acceleration.Sites

/-! # Histories of an engine

What an engine remembers is faithful to what it has compiled, whatever it has
done and however that has ended. So the next evaluation of any of its programs
does the same in both modes. -/

namespace PathScript

namespace Outcome

variable {σ ε α : Type}

theorem Leaves.of_ok {o : Outcome σ ε α} {a : α} {s : σ} (h : o = .ok a s) : o.Leaves s := by
  rw [h]
  exact .ok a s

/-- Whether a computation gives a value, with which something holds. -/
def okAnd (o : Outcome σ ε α) (p : α → σ → Bool) : Bool :=
  match o with
  | .ok a s => p a s
  | _ => false

theorem okAnd_iff {o : Outcome σ ε α} {p : α → σ → Bool} : o.okAnd p = true ↔ ∃ a s, o = .ok a s ∧ p a s = true := by
  cases o <;> simp [okAnd]

def fault? (o : Outcome σ Error α) : Option Fault :=
  match o with
  | .error (.eval e) _ => some e.fault
  | _ => none

end Outcome

namespace Node

variable {n m : Node} {p : Node → Bool}

/-- Whether something holds of a tree that is no deeper than a number, and of all in it. -/
def holdsWithin (p : Node → Bool) : Nat → Node → Bool
  | 0, _ => false
  | depth + 1, n => p n && n.children.all (holdsWithin p depth)

theorem of_holdsWithin {depth : Nat} (h : n.holdsWithin p depth = true) (hm : m.Occurs n) : p m = true := by
  induction hm generalizing depth with
  | here =>
    cases depth with
    | zero => cases h
    | succ depth => exact ((Bool.and_eq_true _ _).mp h).1
  | under child _ ih =>
    cases depth with
    | zero => cases h
    | succ depth => exact ih (List.all_eq_true.mp ((Bool.and_eq_true _ _).mp h).2 _ child)

/-- Whether what a node writes to, if it is a path, has no expression behind its first segment. -/
def targetsName (n : Node) : Bool :=
  match n.target? with
  | some (.path p _) => p.shape[1]? != some .base
  | _ => true

theorem ne_base_of_targetsName {path : Path} {site : SiteId} (h : n.targetsName = true)
    (ht : n.target? = some (.path path site)) : path.shape[1]? ≠ some .base := by
  unfold targetsName at h
  rw [ht] at h
  exact bne_iff_ne.mp h

end Node

/-- A value that the host makes on the heap. -/
def Store.making (g : Heap → Value × Heap) (st : Store) : Value × Store := ((g st.heap).1, { st with heap := (g st.heap).2 })

/-- A setter as a node that writes to its path. -/
def CompiledSetter.node (s : CompiledSetter) : Node := ⟨default, .assignment (.path s.path s.site) none none none none⟩

namespace Engine

/-- What an engine can have become, and the trees of all that it has compiled on the way. It starts with the classes and
functions of its host and with nothing compiled or remembered. -/
inductive History : Engine → List Node → Prop where
  | start {e : Engine} {ceiling : Nat} (functions : e.world.functions = #[]) (cache : e.cache = .empty)
      (accel : e.machine.accel = .fresh ceiling) : History e []
  | compile {e e' : Engine} {trees : List Node} {source : String} {options : CompileOptions} {c : CompiledExpression}
      (h : History e trees) (compiled : Engine.compile source options e = .ok c e') : History e' (c.root :: trees)
  | compileCached {e e' : Engine} {trees : List Node} {source : String} {c : CompiledExpression}
      (h : History e trees) (compiled : Engine.compileCached source e = .ok c e') : History e' (c.root :: trees)
  | compileSetter {e e' : Engine} {trees : List Node} {path : String} {s : CompiledSetter}
      (h : History e trees) (compiled : Engine.compileSetter path e = .ok s e') : History e' (s.node :: trees)
  | clearCache {e e' : Engine} {trees : List Node} (h : History e trees) (left : (Engine.clearCache e).Leaves e') :
      History e' trees
  | evaluate {e e' : Engine} {trees : List Node} {c : CompiledExpression} {ctx this : Value} {vars : Option Variables}
      {options : EvalOptions} (h : History e trees) (known : c.root ∈ trees)
      (left : (Engine.evaluate c ctx this vars options e).Leaves e') : History e' trees
  | set {e e' : Engine} {trees : List Node} {s : CompiledSetter} {ctx v : Value} {vars : Option Variables} {fuel : Nat}
      (h : History e trees) (known : s.node ∈ trees) (left : (Engine.set s ctx vars v fuel e).Leaves e') : History e' trees
  | evictAll {e e' : Engine} {trees : List Node} (h : History e trees) (left : (Engine.evictAll e).Leaves e') :
      History e' trees
  | setCeiling {e e' : Engine} {trees : List Node} {n : Nat} (h : History e trees)
      (left : (Engine.setCeiling n e).Leaves e') : History e' trees
  /-- The host makes values and sets variables. -/
  | host {e e' : Engine} {trees : List Node} {α : Type} {g : Store → α × Store} (h : History e trees)
      (left : (Engine.stepStore g e).Leaves e') : History e' trees

/-! ## What a history keeps -/

/-- An engine whose functions and cached programs are among what it has compiled, with sites numbered apart. -/
structure Grounded (e : Engine) (trees : List Node) : Prop where
  grown : Grown 0 e.nextSite trees
  functions : ∀ fn ∈ e.world.functions, ∃ m, Node.Among trees m ∧ m.kind = .functionDecl fn
  cache : ∀ {source c}, e.cache.get? source = some c → c.root ∈ trees

/-- An engine whose memory is faithful to what it has compiled. -/
structure Ready (e : Engine) (trees : List Node) : Prop extends Grounded e trees where
  faithful : ∃ paths, Faithful e.world.classes trees paths e.machine.accel

variable {e e' : Engine} {trees : List Node} {α : Type} {x y : EvalM α} {source : String} {options : CompileOptions}
  {c : CompiledExpression}

theorem leaves_onMachine (h : (onMachine x e).Leaves e') :
    ∃ m, (x e.machine).Leaves m ∧ e' = { e with machine := m } := by
  simp only [onMachine, Run.zoom, Run.mapError, splitMachine] at h
  cases hx : x e.machine with
  | ok a m => rw [hx] at h; cases h; exact ⟨m, .ok a m, rfl⟩
  | error err m => rw [hx] at h; cases h; exact ⟨m, .error err m, rfl⟩
  | diverged => rw [hx] at h; cases h

theorem onMachine_eq_ok {a : α} :
    onMachine x e = .ok a e' ↔ ∃ m, x e.machine = .ok a m ∧ e' = { e with machine := m } := by
  simp only [onMachine, Run.zoom, Run.mapError, splitMachine]
  cases x e.machine with
  | ok b m =>
    constructor
    · rintro ⟨⟩
      exact ⟨m, rfl, rfl⟩
    · rintro ⟨_, ⟨⟩, rfl⟩
      rfl
  | error err m => simp
  | diverged => simp

/-! ## Evaluations from outside -/

/-- The engine when an evaluation from outside starts. -/
def started (e : Engine) (runtime : Runtime) (vars : Option Variables) : Engine :=
  { e with machine := ⟨(rootChain runtime.imports vars e.machine.store).2, e.machine.accel, none, []⟩ }

def frameOf (e : Engine) (runtime : Runtime) (ctx this : Value) (vars : Option Variables) (mode : Mode) (watched : Bool) :
    Frame :=
  let chain := (rootChain runtime.imports vars e.machine.store).1
  ⟨e.world, runtime, ctx, this, chain, chain, mode, watched, 0⟩

theorem beside (e : Engine) (runtime : Runtime) (ctx this : Value) (vars : Option Variables) (watched : Bool) :
    Frame.Beside e.world (e.frameOf runtime ctx this vars .accelerated watched)
      (e.frameOf runtime ctx this vars .interpreted watched) := ⟨rfl, rfl, rfl⟩

theorem evaluate_eq (e : Engine) (c : CompiledExpression) (ctx this : Value) (vars : Option Variables)
    (options : EvalOptions) : evaluate c ctx this vars options e =
      onMachine (Eval.program options.fuel (e.frameOf c.runtime ctx this vars options.mode options.watched) c.root)
        (e.started c.runtime vars) := rfl

theorem set_eq (e : Engine) (s : CompiledSetter) (ctx v : Value) (vars : Option Variables) (fuel : Nat) :
    set s ctx vars v fuel e =
      onMachine (Access.writePath (Eval.node fuel) (e.frameOf s.runtime ctx .null vars .accelerated false) s.path s.site v)
        (e.started s.runtime vars) := rfl

/-! ### Compiling -/

theorem exists_of_compile (compiled : compile source options e = .ok c e') :
    ∃ p, compileProgram (e.compileEnv source options) e.nextSite e.world.functions.size = .ok p ∧
      c = ⟨p.tree, source, e.runtime options⟩ ∧ e' = adopt p e := by
  unfold compile at compiled
  rw [Run.bind_ok (Run.get_apply e)] at compiled
  cases hprogram : compileProgram (e.compileEnv source options) e.nextSite e.world.functions.size with
  | error err => rw [hprogram] at compiled; cases compiled
  | ok p => rw [hprogram] at compiled; cases compiled; exact ⟨p, rfl, rfl, rfl⟩

theorem exists_of_compileSetter {path : String} {s : CompiledSetter} (compiled : compileSetter path e = .ok s e') :
    ∃ p, compilePath (e.compileEnv path .standard) e.nextSite e.world.functions.size = .ok p ∧
      s = ⟨p.tree, p.nextSite, e.runtime .standard⟩ ∧ e' = adopt { p with nextSite := p.nextSite + 1 } e := by
  unfold compileSetter at compiled
  rw [Run.bind_ok (Run.get_apply e)] at compiled
  cases hpath : compilePath (e.compileEnv path .standard) e.nextSite e.world.functions.size with
  | error err => rw [hpath] at compiled; cases compiled
  | ok p => rw [hpath] at compiled; cases compiled; exact ⟨p, rfl, rfl, rfl⟩

/-- Compiling through the cache finds a program there, or compiles one and keeps it. -/
theorem compileCached_cases (compiled : compileCached source e = .ok c e') :
    (e.cache.get? source = some c ∧ e' = e) ∨ ∃ e₁, compile source .standard e = .ok c e₁ ∧ e' = remember c e₁ := by
  rw [compileCached, Run.get_bind] at compiled
  cases hcache : e.cache.get? source with
  | some found => rw [hcache] at compiled; cases compiled; exact .inl ⟨rfl, rfl⟩
  | none =>
    rw [hcache] at compiled
    obtain ⟨c', e₁, hcompile, hrest⟩ := Run.bind_eq_ok.mp compiled
    cases hrest
    exact .inr ⟨e₁, hcompile, rfl⟩

namespace Grounded

theorem bodies (h : e.Grounded trees) : ∀ fn ∈ e.world.functions, Node.Among trees fn.body := by
  intro fn hfn
  obtain ⟨m, ⟨t, ht, hm⟩, hkind⟩ := h.functions fn hfn
  exact ⟨t, ht, hm.child (by simp [Node.children, hkind])⟩

theorem laidOut (h : e.Grounded trees) : ∀ fn ∈ e.world.functions, fn.LaidOut := by
  intro fn hfn
  obtain ⟨m, hm, hkind⟩ := h.functions fn hfn
  have hsound := h.grown.sound m hm
  simp only [Node.Sound, Node.SoundIn, hkind] at hsound
  exact hsound.1

theorem withMachine (h : e.Grounded trees) (m : Machine) : Grounded { e with machine := m } trees :=
  ⟨h.grown, h.functions, h.cache⟩

/-- Trees that were made after all others, with the functions in them. -/
theorem adopt (h : e.Grounded trees) {c : Compiled α} {n : Node} {hi : SiteId} (hle : e.nextSite ≤ hi)
    (hgrown : Grown e.nextSite hi [n]) (hfun : ∀ fn ∈ c.functions, ∃ m, Node.Among [n] m ∧ m.kind = .functionDecl fn) :
    Grounded (Engine.adopt { c with nextSite := hi } e) (n :: trees) where
  grown := by
    refine (h.grown.append hgrown (Nat.zero_le _) hle).subset fun m hm => ?_
    rcases List.mem_cons.mp hm with rfl | hm
    · exact List.mem_append_right _ (List.mem_singleton_self _)
    · exact List.mem_append_left _ hm
  functions := by
    intro fn hfn
    rcases Array.mem_append.mp hfn with hfn | hfn
    · obtain ⟨m, hm, hkind⟩ := h.functions fn hfn
      exact ⟨m, hm.mono (List.subset_cons_self ..), hkind⟩
    · obtain ⟨m, hm, hkind⟩ := hfun fn (List.mem_toArray.mp hfn)
      exact ⟨m, hm.mono (List.cons_subset_cons _ (List.nil_subset _)), hkind⟩
  cache := fun hc => List.mem_cons_of_mem _ (h.cache hc)

theorem compile (h : e.Grounded trees)
    (compiled : Engine.compile source options e = .ok c e') : e'.Grounded (c.root :: trees) := by
  obtain ⟨p, hprogram, rfl, rfl⟩ := exists_of_compile compiled
  have hp := program_of_compileProgram hprogram
  refine h.adopt hp.le hp.grown fun fn hfn => ?_
  obtain ⟨m, hm, hkind⟩ := hp.functions fn hfn
  exact ⟨m, ⟨p.tree, List.mem_singleton_self _, hm⟩, hkind⟩

theorem remember (h : e.Grounded trees) (hc : c.root ∈ trees) : (Engine.remember c e).Grounded trees := by
  refine ⟨h.grown, h.functions, fun {source c'} hget => ?_⟩
  unfold Engine.remember at hget
  rw [Dict.get?_insert] at hget
  split at hget
  · cases hget; exact hc
  · split at hget
    · cases hget
    · exact h.cache hget

theorem compileCached (h : e.Grounded trees)
    (compiled : Engine.compileCached source e = .ok c e') : e'.Grounded (c.root :: trees) := by
  obtain ⟨hcache, rfl⟩ | ⟨e₁, hcompile, rfl⟩ := compileCached_cases compiled
  · have hsubset : c.root :: trees ⊆ trees := List.cons_subset.mpr ⟨h.cache hcache, List.Subset.refl _⟩
    refine ⟨h.grown.subset hsubset, fun fn hfn => ?_, fun hget => List.mem_cons_of_mem _ (h.cache hget)⟩
    obtain ⟨m, hm, hkind⟩ := h.functions fn hfn
    exact ⟨m, hm.mono (List.subset_cons_self ..), hkind⟩
  · exact (h.compile hcompile).remember (List.mem_cons_self ..)

theorem compileSetter (h : e.Grounded trees) {path : String} {s : CompiledSetter}
    (compiled : Engine.compileSetter path e = .ok s e') : e'.Grounded (s.node :: trees) := by
  obtain ⟨p, hpath, rfl, rfl⟩ := exists_of_compileSetter compiled
  have hp := setter_of_compilePath hpath
  have hgrown : Grown e.nextSite (p.nextSite + 1) [CompiledSetter.node ⟨p.tree, p.nextSite, e.runtime .standard⟩] := by
    have hparts : Grown e.nextSite p.nextSite (p.tree.nodes ++ [] ++ []) := by simpa using hp.grown
    refine hparts.node (fun _ => .read hp.spelled) (fun s hs => ?_) (Nat.le_succ _)
    cases hs
    exact ⟨hp.le, Nat.le_refl _, Nat.lt_succ_self _⟩
  refine h.adopt (Nat.le_succ_of_le hp.le) hgrown fun fn hfn => ?_
  rw [hp.functions] at hfn
  cases hfn

end Grounded

/-- Compilation leaves the classes and the machine as they are. -/
structure SameMachine (e e' : Engine) : Prop where
  classes : e'.world.classes = e.world.classes
  machine : e'.machine = e.machine

theorem sameMachine_of_compile (compiled : compile source options e = .ok c e') : e.SameMachine e' := by
  obtain ⟨p, -, -, rfl⟩ := exists_of_compile compiled
  exact ⟨rfl, rfl⟩

theorem sameMachine_of_compileCached (compiled : compileCached source e = .ok c e') : e.SameMachine e' := by
  obtain ⟨-, rfl⟩ | ⟨e₁, hcompile, rfl⟩ := compileCached_cases compiled
  · exact ⟨rfl, rfl⟩
  · have hsame := sameMachine_of_compile hcompile
    exact ⟨hsame.classes, hsame.machine⟩

theorem sameMachine_of_compileSetter {path : String} {s : CompiledSetter}
    (compiled : compileSetter path e = .ok s e') : e.SameMachine e' := by
  obtain ⟨p, -, -, rfl⟩ := exists_of_compileSetter compiled
  exact ⟨rfl, rfl⟩

/-! ### Memory -/

/-- Something about memory that holds of none, and that evaluation and all else an engine does keep. -/
structure Lasting (Memory : ClassTable → List Node → Accelerator → Prop) : Prop where
  fresh : ∀ classes ceiling, Memory classes [] (.fresh ceiling)
  /-- More programs make no difference. -/
  subset : ∀ {classes trees trees' a}, Memory classes trees a → trees ⊆ trees' → Memory classes trees' a
  /-- Nor do fewer units. -/
  withRegistry : ∀ {classes trees a r}, Memory classes trees a → (∀ e ∈ r.units, e ∈ a.registry.units) →
    Memory classes trees { a with registry := r }
  program : ∀ {e : Engine} {trees m root}, e.Grounded trees → Memory e.world.classes trees e.machine.accel →
    root ∈ trees → ∀ runtime ctx this vars (options : EvalOptions),
    (Eval.program options.fuel (e.frameOf runtime ctx this vars options.mode options.watched) root
      (e.started runtime vars).machine).Leaves m → Memory e.world.classes trees m.accel
  setter : ∀ {e : Engine} {trees m s}, e.Grounded trees → Memory e.world.classes trees e.machine.accel →
    CompiledSetter.node s ∈ trees → ∀ ctx vars v fuel,
    (Access.writePath (Eval.node fuel) (e.frameOf s.runtime ctx .null vars .accelerated false) s.path s.site v
      (e.started s.runtime vars).machine).Leaves m → Memory e.world.classes trees m.accel

/-- After any history an engine is grounded, and its memory is as it may be expected. -/
theorem History.keeps {Memory : ClassTable → List Node → Accelerator → Prop} (hm : Lasting Memory) (h : History e trees) :
    e.Grounded trees ∧ Memory e.world.classes trees e.machine.accel := by
  induction h with
  | start functions cache accel =>
    refine ⟨⟨.nil, fun fn hfn => ?_, fun hc => ?_⟩, ?_⟩
    · rw [functions] at hfn; simp at hfn
    · rw [cache] at hc; cases hc
    · rw [accel]; exact hm.fresh _ _
  | compile _ compiled ih =>
    have hsame := sameMachine_of_compile compiled
    exact ⟨ih.1.compile compiled, hsame.classes ▸ hsame.machine ▸ hm.subset ih.2 (List.subset_cons_self ..)⟩
  | compileCached _ compiled ih =>
    have hsame := sameMachine_of_compileCached compiled
    exact ⟨ih.1.compileCached compiled, hsame.classes ▸ hsame.machine ▸ hm.subset ih.2 (List.subset_cons_self ..)⟩
  | compileSetter _ compiled ih =>
    have hsame := sameMachine_of_compileSetter compiled
    exact ⟨ih.1.compileSetter compiled, hsame.classes ▸ hsame.machine ▸ hm.subset ih.2 (List.subset_cons_self ..)⟩
  | clearCache _ left ih =>
    cases left
    exact ⟨⟨ih.1.grown, ih.1.functions, nofun⟩, ih.2⟩
  | evaluate _ known left ih =>
    rw [evaluate_eq] at left
    obtain ⟨m, hleft, rfl⟩ := leaves_onMachine left
    have hmemory := hm.program ih.1 ih.2 known _ _ _ _ _ hleft
    exact ⟨ih.1.withMachine m, hmemory⟩
  | set _ known left ih =>
    rw [set_eq] at left
    obtain ⟨m, hleft, rfl⟩ := leaves_onMachine left
    have hmemory := hm.setter ih.1 ih.2 known _ _ _ _ hleft
    exact ⟨ih.1.withMachine m, hmemory⟩
  | evictAll _ left ih =>
    obtain ⟨m, hleft, rfl⟩ := leaves_onMachine left
    rw [EvalM.stepAccel_apply] at hleft
    cases hleft
    exact ⟨ih.1.withMachine _, hm.withRegistry ih.2 nofun⟩
  | setCeiling _ left ih =>
    obtain ⟨m, hleft, rfl⟩ := leaves_onMachine left
    cases hleft
    exact ⟨ih.1.withMachine _, hm.withRegistry ih.2 fun _ he => he⟩
  | host _ left ih =>
    obtain ⟨m, hleft, rfl⟩ := leaves_onMachine left
    rw [EvalM.stepStore_apply] at hleft
    cases hleft
    exact ⟨ih.1.withMachine _, ih.2⟩

/-! ### Faithful memory -/

theorem Grounded.sim_program (h : e.Grounded trees) (hu : Unambiguous trees) {root : Node} (hroot : root ∈ trees)
    (runtime : Runtime) (ctx this : Value) (vars : Option Variables) (watched : Bool) (fuel : Nat) (paths : List Path)
    (start : Accelerator) : (acceleration e.world trees start).Sim paths
      (Eval.program fuel (e.frameOf runtime ctx this vars .accelerated watched) root)
      (Eval.program fuel (e.frameOf runtime ctx this vars .interpreted watched) root) :=
  Acceleration.sim_program h.grown hu h.bodies (beside e runtime ctx this vars watched) ⟨root, hroot, .here _⟩ fuel

theorem faithful_of_leaves {m m' : Machine} (hm : ∃ paths, Faithful e.world.classes trees paths m.accel)
    (hsim : ∀ paths start, (acceleration e.world trees start).Sim paths x y)
    (left : (x m).Leaves m' ∨ (y m).Leaves m') : ∃ paths, Faithful e.world.classes trees paths m'.accel := by
  obtain ⟨paths, hfaithful⟩ := hm
  have hjoined := hsim paths m.accel paths (List.prefix_refl _) m m ⟨rfl, rfl, rfl, rfl, hfaithful⟩
  rcases left with left | left
  · obtain ⟨more, _, -, alike⟩ := hjoined.leaves_left trivial left
    exact ⟨more, alike.faithful⟩
  · obtain ⟨_, _, -, alike⟩ := hjoined.leaves_right trivial left
    exact ⟨paths, alike.start ▸ hfaithful⟩

theorem lasting_faithful :
    Lasting fun classes trees a => Unambiguous trees → ∃ paths, Faithful classes trees paths a where
  fresh := fun _ ceiling _ => ⟨[], .fresh ceiling⟩
  subset := fun h hs hu => by
    obtain ⟨paths, hfaithful⟩ := h (hu.subset hs)
    exact ⟨paths, hfaithful.subset hs⟩
  withRegistry := fun h hr hu => by
    obtain ⟨paths, hfaithful⟩ := h hu
    exact ⟨paths, hfaithful.withRegistry hr⟩
  program := fun h hm hroot runtime ctx this vars options left hu => by
    have hsim := fun paths start =>
      h.sim_program hu hroot runtime ctx this vars options.watched options.fuel paths start
    refine faithful_of_leaves (m := (started _ runtime vars).machine) (hm hu) hsim ?_
    cases hmode : options.mode with
    | accelerated => rw [hmode] at left; exact .inl left
    | interpreted => rw [hmode] at left; exact .inr left
  setter := fun {e trees _ s} h hm hs ctx vars v fuel left hu => by
    have hsim : ∀ paths start, (acceleration e.world trees start).Sim paths
        (Access.writePath (Eval.node fuel) (e.frameOf s.runtime ctx .null vars .accelerated false) s.path s.site v)
        (Access.writePath (Eval.node fuel) (e.frameOf s.runtime ctx .null vars .interpreted false) s.path s.site v) :=
      fun paths start => (Acceleration.sites h.grown hu h.bodies).writePath
        (Acceleration.evaluators h.grown hu h.bodies fuel) (beside e s.runtime ctx .null vars false)
        ⟨s.node, hs, .here _⟩ rfl v
    exact faithful_of_leaves (m := (e.started s.runtime vars).machine) (hm hu) hsim (.inl left)

/-- After any history the memory of an engine is faithful. -/
theorem History.ready (h : History e trees) (hu : Unambiguous trees) : e.Ready trees :=
  ⟨(h.keeps lasting_faithful).1, (h.keeps lasting_faithful).2 hu⟩

/-! ## Both modes -/

/-- Engines that differ in what they remember at most: they have the same heap and variables, and have reported the same
statements. -/
def SameButMemory (e e' : Engine) : Prop :=
  e' = { e with machine := { e.machine with accel := e'.machine.accel } }

/-- How evaluations in both modes end. -/
inductive Agree (trees : List Node) : Outcome Engine Error Value → Outcome Engine Error Value → Prop where
  | ok {v : Value} {e e' : Engine} (same : e.SameButMemory e') : Agree trees (.ok v e) (.ok v e')
  | error {err err' : EvalError} {e e' : Engine} (agrees : EvalError.Agrees trees err err') (same : e.SameButMemory e') :
      Agree trees (.error (.eval err) e) (.error (.eval err') e')
  | diverged : Agree trees .diverged .diverged

theorem sameButMemory_of_beside {classes : ClassTable} {start : Accelerator} {paths : List Path} {m m' : Machine}
    (h : Machine.Beside classes trees start paths m m') (e : Engine) :
    SameButMemory { e with machine := m } { e with machine := m' } := by
  obtain ⟨store, accel, returned, events⟩ := m
  obtain ⟨store', accel', returned', events'⟩ := m'
  obtain ⟨rfl, rfl, rfl, -, -⟩ := h
  rfl

/-- After any history, evaluating one of the programs of an engine accelerated and evaluating it interpreted in the same
state end alike: with the same value, with errors that agree, or both not at all; with the same heap and variables, and
with the same statements reported. Texts of paths have to be unambiguous, and the errors are the same but where a path
is updated, with an index on `null` on the way to its container. -/
theorem evaluation_agrees (h : History e trees) (hu : Unambiguous trees) (c : CompiledExpression) (hc : c.root ∈ trees)
    (ctx this : Value) (vars : Option Variables) (watched : Bool) (fuel : Nat) :
    Agree trees (evaluate c ctx this vars ⟨.accelerated, watched, fuel⟩ e)
      (evaluate c ctx this vars ⟨.interpreted, watched, fuel⟩ e) := by
  have hready := h.ready hu
  obtain ⟨paths, hfaithful⟩ := hready.faithful
  have hjoined := hready.sim_program hu hc c.runtime ctx this vars watched fuel paths e.machine.accel paths
    (List.prefix_refl _) (e.started c.runtime vars).machine (e.started c.runtime vars).machine
    ⟨rfl, rfl, rfl, rfl, hfaithful⟩
  rw [evaluate_eq, evaluate_eq]
  simp only [onMachine, Run.zoom, Run.mapError, splitMachine]
  generalize Eval.program fuel (e.frameOf c.runtime ctx this vars .accelerated watched) c.root _ = o at hjoined ⊢
  generalize Eval.program fuel (e.frameOf c.runtime ctx this vars .interpreted watched) c.root _ = o' at hjoined ⊢
  cases hjoined with
  | ok le alike => exact .ok (sameButMemory_of_beside alike _)
  | error le related alike => exact .error related (sameButMemory_of_beside (alike trivial) _)
  | diverged => exact .diverged

/-- `a[0].c += 1` is evaluated where `a` is a list, and then where it is `null`. The second evaluation fails at the index.
Interpreted it names the whole path; accelerated it reads the container by the cell that the first has left, and names
only that. -/
theorem evaluation_agrees_updated_path : ∃ (e : Engine) (trees : List Node) (c : CompiledExpression) (ctx : Value),
    History e trees ∧ Unambiguous trees ∧ c.root ∈ trees ∧
      Agree trees (evaluate c ctx .null none ⟨.accelerated, false, 20⟩ e)
        (evaluate c ctx .null none ⟨.interpreted, false, 20⟩ e) ∧
      (evaluate c ctx .null none ⟨.accelerated, false, 20⟩ e).fault? = some (.nullReference "a[0][]") ∧
      (evaluate c ctx .null none ⟨.interpreted, false, 20⟩ e).fault? = some (.nullReference "a[0].c[]") := by
  let e₀ : Engine := .new { Config.standard with optimizer := .safe } fun _ => 0
  let withList : Heap → Value × Heap := fun h =>
    let item := h.newMap (Dict.empty.insert "c" (.int 1))
    let items := item.2.newList #[item.1]
    items.2.newMap (Dict.empty.insert "a" items.1)
  let withNull : Heap → Value × Heap := Heap.newMap (Dict.empty.insert "a" .null)
  have h : (compile "a[0].c += 1" .standard e₀).okAnd (fun c e₁ =>
      (stepStore (Store.making withList) e₁).okAnd fun first e₂ =>
      (evaluate c first .null none ⟨.accelerated, false, 20⟩ e₂).okAnd fun _ e₃ =>
      (stepStore (Store.making withNull) e₃).okAnd fun ctx e₄ =>
        c.root.holdsWithin Node.targetsName 10 &&
        decide ((evaluate c ctx .null none ⟨.accelerated, false, 20⟩ e₄).fault? = some (.nullReference "a[0][]")) &&
        decide ((evaluate c ctx .null none ⟨.interpreted, false, 20⟩ e₄).fault? =
          some (.nullReference "a[0].c[]"))) = true := by decide +kernel
  simp only [Outcome.okAnd_iff] at h
  obtain ⟨c, e₁, hcompiled, first, e₂, hfirst, v, e₃, hevaluated, ctx, e₄, hctx, h⟩ := h
  obtain ⟨h, hinterpreted⟩ := (Bool.and_eq_true _ _).mp h
  obtain ⟨htargets, haccelerated⟩ := (Bool.and_eq_true _ _).mp h
  have hstart : History e₀ [] := .start rfl rfl rfl
  have hc : c.root ∈ [c.root] := List.mem_singleton_self _
  have hhistory : History e₄ [c.root] :=
    .host (.evaluate (.host (.compile hstart hcompiled) (.of_ok hfirst)) hc (.of_ok hevaluated)) (.of_ok hctx)
  have hnothing : e₀.Ready [] := hstart.ready fun p q hp => by
    cases hp with
    | read among _ => obtain ⟨n, hn, -⟩ := among; cases hn
    | container among _ => obtain ⟨n, hn, -⟩ := among; cases hn
  have hu : Unambiguous [c.root] := by
    refine unambiguous_of_targets (hnothing.compile hcompiled).grown fun n hn p site ht => ?_
    obtain ⟨t, hroot, hn⟩ := hn
    cases List.mem_singleton.mp hroot
    exact Node.ne_base_of_targetsName (Node.of_holdsWithin htargets hn) ht
  exact ⟨e₄, [c.root], c, ctx, hhistory, hu, hc, evaluation_agrees hhistory hu c hc ctx .null none false 20,
    of_decide_eq_true haccelerated, of_decide_eq_true hinterpreted⟩

end Engine

end PathScript
