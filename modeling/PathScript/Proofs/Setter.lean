import PathScript.Proofs.Acceleration.Trace
import PathScript.Proofs.PlainPath
import PathScript.Proofs.Setter.Write

/-! # Setters and programs

A setter writes through its path, and the text of the path, compiled as a
program, reads it. After any history the cells and units that either of them uses
serve the path, as its text starts with a name and so tells its form. -/

namespace PathScript

/-! ## Cells after a history -/

namespace Traced

variable {ev : Evaluator} {f : Frame} {trees : List Node} {paths : List Path} {a : Accelerator} {lo hi : SiteId} {n : Node}
  {p : Path} {site : SiteId} {cell : CellId} {name : String} {steps : List Segment}
  (h : Traced f.world.classes trees paths a) (hg : Grown lo hi trees)
include h hg

theorem serves (hcell : paths[cell]? = some p) (hroot : p.segments = .root name :: steps) : Access.Serves ev f p a cell := by
  intro c u hget hu
  have hlearned := h.learned p (List.mem_of_getElem? hcell)
  have hshape : p.shape[0]? = some (.root name) := by rw [Path.shape, hroot]; rfl
  exact SpecializedUnit.run_eq_read ev f p ((h.cells hcell hget hu).fits (hlearned.textTells_of_root hg hshape))

theorem serves_read (hn : Node.Among trees n) (hk : n.kind = .property p site) (hroot : p.segments = .root name :: steps)
    (hread : a.reads.get? site = some cell) : Access.Serves ev f p a cell :=
  h.serves hg (h.getElem?_of_read hg hn hk hread) hroot

theorem serves_write (hn : Node.Among trees n) (ht : n.target? = some (.path p site))
    (hroot : p.segments = .root name :: steps) {container : Option CellId} (hwrite : a.writes.get? site = some container) :
    Access.ServesWrite ev f p a container := by
  cases h.hasContainer_of_write hg hn ht hwrite with
  | none short => exact ⟨⟨fun _ => short, fun _ => rfl⟩, nofun⟩
  | @some cell long cellOf =>
    refine ⟨⟨nofun, fun hle => absurd hle (Nat.not_le.mpr long)⟩, fun hcell => ?_⟩
    cases hcell
    have hsegments : (Access.container p).segments = .root name :: steps.dropLast := by
      cases steps with
      | nil =>
        rw [Path.length, hroot] at long
        cases Nat.lt_irrefl _ long
      | cons s steps => rw [p.segments_container, hroot, List.dropLast_cons_cons]
    exact h.serves hg cellOf hsegments

end Traced

/-- The steps of a plain path whose nodes were made by a compilation stand for the same places whenever they are taken. -/
theorem Path.constant_of_isPlain {p : Path} {trees : List Node} {lo hi : SiteId} (hg : Grown lo hi trees)
    (hnodes : ∀ n ∈ p.nodes, Node.Among trees n) (hp : p.isPlain = true) :
    ∃ name steps, p.segments = .root name :: steps ∧ ∀ s ∈ steps, s.Constant := by
  obtain ⟨name, steps, hsegments, hplain⟩ := Path.exists_of_isPlain hp
  refine ⟨name, steps, hsegments, fun s hs => ?_⟩
  have hs' := hplain s hs
  cases s with
  | property name safe => trivial
  | index n safe =>
    have hmem : Segment.index n safe ∈ p.segments := hsegments ▸ List.mem_cons_of_mem _ hs
    have hn : n ∈ p.nodes := List.mem_flatMap.mpr ⟨_, hmem, List.mem_singleton_self n⟩
    obtain ⟨v, hv⟩ := Option.isSome_iff_exists.mp hs'
    have hsound := hg.sound n (hnodes n hn)
    rw [Node.Sound, Node.SoundIn, Node.kind_of_literal? hv] at hsound
    obtain ⟨text, htext⟩ := Value.text_plain hsound
    exact ⟨v, text, hv, htext⟩
  | _ => cases hs'

/-! ## Evaluations from outside -/

namespace Variables

variable {vars : Variables} {classes : ClassTable} {st : Store} {ctx : Value} {library : ClassLibrary} {p : Path}
  (hlive : vars.Live st) (kind : ScopeKind) (cells : List (String × Option SlotId)) (chain : Chain)
include hlive

theorem slot?_push (name : String) : vars.slot? (st.push kind cells chain).2 name = vars.slot? st name := by
  rw [slot?, Store.local?, Store.scope_push, if_neg (Nat.ne_of_lt hlive.scope)]
  rfl

theorem name?_push (name : String) :
    vars.name? classes (st.push kind cells chain).2 ctx name = vars.name? classes st ctx name := by
  rw [name?, name?, slot?_push hlive]
  rfl

theorem lead?_push : vars.lead? classes (st.push kind cells chain).2 ctx p = vars.lead? classes st ctx p := by
  unfold lead?
  split
  · rw [name?_push hlive]
    rfl
  · rfl

theorem meets_push : vars.meets classes (st.push kind cells chain).2 ctx library p = vars.meets classes st ctx library p := by
  unfold meets
  split
  · rw [name?_push hlive, meetsName, meetsName, slot?_push hlive]
    rfl
  · rfl

theorem Live.push : vars.Live (st.push kind cells chain).2 where
  scope := by
    rw [Store.push, Table.size_alloc]
    exact Nat.lt_succ_of_lt hlive.scope
  kind := by
    rw [Store.scope_push, if_neg (Nat.ne_of_lt hlive.scope)]
    exact hlive.kind
  slots := fun hslot => hlive.slots ((slot?_push hlive kind cells chain _).symm.trans hslot)

end Variables

theorem Eval.takesLiterals (fuel : Nat) : (Eval.node fuel).TakesLiterals := fun h => Lockstep.node_literal h fuel

theorem Eval.program_of_readPath {fuel : Nat} {f : Frame} {root n : Node} {ownScope : Bool} {p : Path} {site : SiteId}
    {w : Value} {m : Machine} (hroot : root.kind = .block [n] ownScope) (hn : n.kind = .property p site)
    (hread : ∀ m', m'.store = m.store → m'.accel = m.accel →
      ∃ accel, Access.readPath (node fuel) f p site m' = .ok w { m' with accel }) :
    ∃ m', program (fuel + 1) f root m = .ok w m' := by
  obtain ⟨events, hreport⟩ : ∃ events, EvalM.report f n.info { m with returned := none } =
      .ok () { m with returned := none, events } := by
    unfold EvalM.report
    cases f.watched with
    | false => exact ⟨m.events, rfl⟩
    | true => cases n.info.line <;> exact ⟨_, rfl⟩
  obtain ⟨accel, hread⟩ := hread { m with returned := none, events } rfl rfl
  have hnode : node (fuel + 1) f n = Access.readPath (node fuel) f p site := by
    rw [node, step, hn]
  have hstatements : unscoped (node (fuel + 1)) f root { m with returned := none } =
      .ok w { m with returned := none, events, accel } := by
    rw [unscoped, hroot]
    refine (Run.bind_ok hreport _).trans ?_
    rw [hnode]
    exact Run.bind_ok hread _
  refine ⟨{ m with events, accel }, ?_⟩
  have honError : (unscoped (node (fuel + 1)) f root).onError (fun m' => { m' with returned := m.returned })
      { m with returned := none } = .ok w { m with returned := none, events, accel } := by
    rw [Run.onError, hstatements]
  exact Run.bind_ok honError _

namespace Engine

theorem rootChain_empty (vars : Variables) (st : Store) :
    rootChain .empty (some vars) st = st.push .imports [] [vars.scope] := rfl

variable {e e' e₀ e₁ e₂ : Engine} {vars : Variables} {runtime : Runtime} {text : String} {s : CompiledSetter}
  {c : CompiledExpression}

theorem outer_frameOf (hlive : vars.Live e.machine.store) (himports : runtime.imports = .empty) (ctx : Value) (mode : Mode)
    (watched : Bool) :
    (e.frameOf runtime ctx .null (some vars) mode watched).Outer vars (e.started runtime (some vars)).machine.store := by
  refine ⟨⟨e.machine.store.scopes.size, ?_, ?_⟩, rfl, ?_⟩
  · rw [frameOf, himports]
    rfl
  · rw [started, himports, rootChain_empty, Store.scope_push, if_pos rfl]
  · rw [started, himports, rootChain_empty]
    exact hlive.push .imports [] [vars.scope]

theorem lead?_started (hlive : vars.Live e.machine.store) (himports : runtime.imports = .empty) (classes : ClassTable)
    (ctx : Value) (p : Path) :
    vars.lead? classes (e.started runtime (some vars)).machine.store ctx p = vars.lead? classes e.machine.store ctx p := by
  rw [started, himports, rootChain_empty]
  exact Variables.lead?_push hlive .imports [] [vars.scope]

theorem meets_started (hlive : vars.Live e.machine.store) (himports : runtime.imports = .empty) (classes : ClassTable)
    (ctx : Value) (library : ClassLibrary) (p : Path) :
    vars.meets classes (e.started runtime (some vars)).machine.store ctx library p =
      vars.meets classes e.machine.store ctx library p := by
  rw [started, himports, rootChain_empty]
  exact Variables.meets_push hlive .imports [] [vars.scope]

/-! ## Texts of paths -/

/-- Two engines for which a text means the same. -/
structure SameClasses (e e' : Engine) : Prop where
  classes : e'.world.classes = e.world.classes
  library : e'.library = e.library

namespace SameClasses

variable {e'' : Engine}

theorem symm (h : e.SameClasses e') : e'.SameClasses e := ⟨h.classes.symm, h.library.symm⟩

theorem trans (h : e.SameClasses e') (h' : e'.SameClasses e'') : e.SameClasses e'' :=
  ⟨h'.classes.trans h.classes, h'.library.trans h.library⟩

theorem compileEnv_eq (h : e.SameClasses e') (text : String) (options : CompileOptions) :
    e'.compileEnv text options = e.compileEnv text options := by
  rw [compileEnv, compileEnv, h.classes, h.library]

theorem of_onMachine {α : Type} {x : EvalM α} {a : α} (h : onMachine x e = .ok a e') : e.SameClasses e' := by
  obtain ⟨m, -, rfl⟩ := onMachine_eq_ok.mp h
  exact ⟨rfl, rfl⟩

theorem of_evaluate {ctx this v : Value} {vars : Option Variables} {options : EvalOptions}
    (h : evaluate c ctx this vars options e = .ok v e') : e.SameClasses e' := by
  rw [evaluate_eq] at h
  have hstarted : e.SameClasses (e.started c.runtime vars) := ⟨rfl, rfl⟩
  exact hstarted.trans (of_onMachine h)

end SameClasses

/-- A program that reads a path. -/
structure Reads (c : CompiledExpression) (p : Path) : Prop where
  root : ∃ n site ownScope, c.root.kind = .block [n] ownScope ∧ n.kind = .property p site
  imports : c.runtime.imports = .empty

theorem compilePath_of_compileSetter (compiled : compileSetter text e₀ = .ok s e₁) :
    ∃ c, compilePath (e₀.compileEnv text .standard) e₀.nextSite e₀.world.functions.size = .ok c ∧ s.path = c.tree ∧
      s.runtime = e₀.runtime .standard := by
  obtain ⟨p, hpath, rfl, -⟩ := exists_of_compileSetter compiled
  exact ⟨p, hpath, rfl, rfl⟩

theorem keeps_of_standard (compiled : compileSetter text e₀ = .ok s e₁)
    (hconverter : e₀.converter = ConversionRegistry.empty.converter) : s.runtime.converter.Keeps := by
  obtain ⟨-, -, -, hruntime⟩ := compilePath_of_compileSetter compiled
  rw [hruntime, runtime, hconverter]
  exact ConversionRegistry.keeps fun _ hmem => absurd hmem List.not_mem_nil

section Texts

variable (compiled : compileSetter text e₀ = .ok s e₁)
  (plain : s.path.isPlain = true) (same : e₀.SameClasses e₂)
include compiled plain same

theorem exists_reads : ∃ c e₃, compile text .standard e₂ = .ok c e₃ ∧ Reads c s.path := by
  obtain ⟨p, hpath, htree, -⟩ := compilePath_of_compileSetter compiled
  rw [htree] at plain ⊢
  obtain ⟨c, hprogram, n, site, hroot, hkind⟩ := compileProgram_eq rfl hpath plain e₂.nextSite e₂.world.functions.size
  rw [← same.compileEnv_eq] at hprogram
  have hcompile : ∃ e₃, compile text .standard e₂ = .ok ⟨c.tree, text, e₂.runtime .standard⟩ e₃ := by
    rw [compile, Run.get_bind, hprogram]
    exact ⟨_, rfl⟩
  obtain ⟨e₃, hcompile⟩ := hcompile
  exact ⟨_, e₃, hcompile, ⟨n, site, false, hroot, hkind⟩, rfl⟩

theorem reads_of_compile {e₃ : Engine} (hcompile : compile text .standard e₂ = .ok c e₃) : Reads c s.path := by
  obtain ⟨c', e', hcompile', hreads⟩ := exists_reads compiled plain same
  cases hcompile'.symm.trans hcompile
  exact hreads

end Texts

/-! ## The cache after a history -/

/-- Programs in the cache were compiled from their sources, for the classes that there are. -/
def CacheCompiled (e : Engine) : Prop :=
  ∀ text c, e.cache.get? text = some c → ∃ e₂ e₃, e.SameClasses e₂ ∧ compile text .standard e₂ = .ok c e₃

theorem CacheCompiled.keep (h : e.CacheCompiled) (hsame : e.SameClasses e') (hcache : e'.cache = e.cache) :
    e'.CacheCompiled := by
  intro text c hget
  obtain ⟨e₂, e₃, hsame₂, hcompile⟩ := h text c (hcache ▸ hget)
  exact ⟨e₂, e₃, hsame.symm.trans hsame₂, hcompile⟩

theorem CacheCompiled.withMachine (h : e.CacheCompiled) (m : Machine) : CacheCompiled { e with machine := m } :=
  h.keep ⟨rfl, rfl⟩ rfl

theorem keeps_of_compile {source : String} {options : CompileOptions}
    (compiled : compile source options e = .ok c e') : e.SameClasses e' ∧ e'.cache = e.cache := by
  obtain ⟨p, -, -, rfl⟩ := exists_of_compile compiled
  exact ⟨⟨rfl, rfl⟩, rfl⟩

theorem keeps_of_compileSetter {path : String}
    (compiled : compileSetter path e = .ok s e') : e.SameClasses e' ∧ e'.cache = e.cache := by
  obtain ⟨p, -, -, rfl⟩ := exists_of_compileSetter compiled
  exact ⟨⟨rfl, rfl⟩, rfl⟩

theorem CacheCompiled.remember (h : e.CacheCompiled)
    (compiled : compile c.source .standard e = .ok c e₁) : (Engine.remember c e₁).CacheCompiled := by
  obtain ⟨hsame, hcache⟩ := keeps_of_compile compiled
  intro text c' hget
  have hkept : text = c.source ∧ c' = c ∨ e₁.cache.get? text = some c' := by
    simp only [Engine.remember, Dict.get?_insert] at hget
    split at hget
    next heq =>
      cases hget
      exact .inl ⟨heq.symm, rfl⟩
    next =>
      split at hget
      next => cases hget
      next => exact .inr hget
  obtain ⟨rfl, rfl⟩ | hold := hkept
  · exact ⟨e, e₁, ⟨hsame.classes.symm, hsame.library.symm⟩, compiled⟩
  · obtain ⟨e₂, e₃, hsame₂, hcompile⟩ := h text c' (hcache ▸ hold)
    exact ⟨e₂, e₃, ⟨hsame₂.classes.trans hsame.classes.symm, hsame₂.library.trans hsame.library.symm⟩, hcompile⟩

/-- What is in the cache after any history was compiled from its source. -/
theorem History.cacheCompiled {trees : List Node} (history : History e trees) : e.CacheCompiled := by
  induction history with
  | start _ cache _ =>
    intro text c hget
    rw [cache] at hget
    cases hget
  | compile _ compiled ih =>
    obtain ⟨hsame, hcache⟩ := keeps_of_compile compiled
    exact ih.keep hsame hcache
  | compileCached _ compiled ih =>
    obtain ⟨-, rfl⟩ | ⟨e₁, hcompile, rfl⟩ := compileCached_cases compiled
    · exact ih
    · obtain ⟨p, -, rfl, -⟩ := exists_of_compile hcompile
      exact ih.remember hcompile
  | compileSetter _ compiled ih =>
    obtain ⟨hsame, hcache⟩ := keeps_of_compileSetter compiled
    exact ih.keep hsame hcache
  | clearCache _ left _ =>
    cases left
    intro text c hget
    cases hget
  | evaluate _ _ left ih =>
    rw [evaluate_eq] at left
    obtain ⟨m, -, rfl⟩ := leaves_onMachine left
    exact ih.withMachine m
  | set _ _ left ih =>
    rw [set_eq] at left
    obtain ⟨m, -, rfl⟩ := leaves_onMachine left
    exact ih.withMachine m
  | evictAll _ left ih | setCeiling _ left ih | host _ left ih =>
    obtain ⟨m, -, rfl⟩ := leaves_onMachine left
    exact ih.withMachine m

/-! ## Reading after a history -/

section Histories

variable {trees : List Node} {p : Path} {w ctx : Value}

/-- A program that reads a plain path gives what the path leads to, in either mode. -/
theorem Reads.evaluate_eq_ok (h : Reads c p) (history : History e trees) (known : c.root ∈ trees)
    (hp : p.isPlain = true) (hsame : e₀.SameMachine e) (hlive : vars.Live e₀.machine.store)
    (hl : vars.lead? e₀.world.classes e₀.machine.store ctx p = some w) (options : EvalOptions) (hfuel : 0 < options.fuel) :
    ∃ e', evaluate c ctx .null (some vars) options e = .ok w e' := by
  rw [← hsame.machine] at hlive hl
  rw [← hsame.classes] at hl
  obtain ⟨hgrounded, paths, htraced⟩ := history.traced
  obtain ⟨n, site, ownScope, hroot, hn⟩ := h.root
  have hoccurs : n.Occurs c.root := (Node.Occurs.here _).child (by simp [Node.children, hroot])
  obtain ⟨name, steps, hsegments, hsteps⟩ := Path.constant_of_isPlain hgrounded.grown
    (fun m hm => ⟨c.root, known, hoccurs.child (by simpa [Node.children, hn] using hm)⟩) hp
  obtain ⟨fuel, hfuel⟩ : ∃ fuel, options.fuel = fuel + 1 := ⟨options.fuel - 1, by omega⟩
  have hframe := outer_frameOf hlive h.imports ctx options.mode options.watched
  rw [← lead?_started hlive h.imports, Variables.lead?, hsegments] at hl
  obtain ⟨v, hv, hl⟩ := Option.bind_eq_some_iff.mp hl
  obtain ⟨seen, hfixed⟩ := hframe.fixed_walk p (Eval.takesLiterals fuel) hsteps hv hl
  rw [← hsegments] at hfixed
  obtain ⟨m, hm⟩ := Eval.program_of_readPath hroot hn fun m hstore haccel =>
    Access.readPath_eq hfixed hstore fun cell hcell => by
      rw [haccel] at hcell ⊢
      exact htraced.serves_read hgrounded.grown ⟨c.root, known, hoccurs⟩ hn hsegments hcell
  rw [evaluate_eq, hfuel]
  exact ⟨_, onMachine_eq_ok.mpr ⟨m, hm, rfl⟩⟩

theorem lead?_of_set {v : Value} {fuel : Nat} (history : History e trees)
    (known : s.node ∈ trees) (himports : s.runtime.imports = .empty) (hp : s.path.isPlain = true)
    (hkeeps : s.runtime.converter.Keeps) (hlive : vars.Live e.machine.store) (hacyclic : e.machine.store.heap.Acyclic)
    (hmeets : vars.meets e.world.classes e.machine.store ctx s.runtime.library s.path = true)
    (stored : set s ctx (some vars) v fuel e = .ok w e') :
    e.SameClasses e' ∧ vars.lead? e'.world.classes e'.machine.store ctx s.path = some w ∧ vars.Live e'.machine.store := by
  obtain ⟨hgrounded, paths, htraced⟩ := history.traced
  have hamong : Node.Among trees s.node := ⟨s.node, known, .here _⟩
  obtain ⟨name, steps, hsegments, hsteps⟩ := Path.constant_of_isPlain hgrounded.grown
    (fun m hm => ⟨s.node, known, (Node.Occurs.here _).child (Node.own_subset_children (Node.mem_own_of_target rfl hm))⟩) hp
  have hframe := outer_frameOf hlive himports ctx .accelerated false
  rw [set_eq] at stored
  obtain ⟨m, hm, rfl⟩ := onMachine_eq_ok.mp stored
  rw [← meets_started hlive himports] at hmeets
  have hheap : (e.started s.runtime (some vars)).machine.store.heap = e.machine.store.heap := by
    rw [started, himports]
    rfl
  exact ⟨⟨rfl, rfl⟩, Access.writePath_eq_ok (Eval.takesLiterals fuel) rfl hframe hkeeps (hheap ▸ hacyclic) hsegments hsteps hmeets
    (fun container hcontainer => htraced.serves_write hgrounded.grown hamong rfl hsegments hcontainer) hm⟩

/-- The text of a plain path can be compiled through the cache, to a program that reads the path. -/
theorem exists_reads_cached (compiled : compileSetter text e₀ = .ok s e₁)
    (plain : s.path.isPlain = true) (same : e₀.SameClasses e) (history : History e trees) :
    ∃ c e₂, compileCached text e = .ok c e₂ ∧ Reads c s.path := by
  rw [compileCached, Run.get_bind]
  cases hcache : e.cache.get? text with
  | some c =>
    obtain ⟨e₂, e₃, hsame, hcompile⟩ := history.cacheCompiled text c hcache
    exact ⟨c, e, rfl, reads_of_compile compiled plain (same.trans hsame) hcompile⟩
  | none =>
    obtain ⟨c, e₂, hcompile, hreads⟩ := exists_reads compiled plain same
    exact ⟨c, remember c e₂, Run.bind_ok hcompile _, hreads⟩

end Histories

/-- Setters and programs agree. A setter was compiled from a text whose path is a name, followed by properties and by
indices that are literals, each of them safe on `null` or not. Nothing but places is met on the path: a variable or a
name of the context, then entries of maps, declared fields of objects, items of lists and elements of arrays, or `null`.
No container of the heap reaches itself, and the converter changes no container that there is. If the setter then
stores, the same text gives what it stored: compiled anew, interpreted, or through the cache, accelerated; and so does
every program that was compiled from it before, in either mode, whatever has been remembered. -/
theorem set_then_evaluate {e₀ e₁ e e' : Engine} {trees : List Node} {text : String} {s : CompiledSetter} {ctx v w : Value}
    {vars : Variables} {setFuel : Nat} (compiled : compileSetter text e₀ = .ok s e₁) (plain : s.path.isPlain = true)
    (keeps : s.runtime.converter.Keeps) (history : History e trees) (known : s.node ∈ trees) (same : e₀.SameClasses e)
    (live : vars.Live e.machine.store) (acyclic : e.machine.store.heap.Acyclic)
    (meets : vars.meets e.world.classes e.machine.store ctx e.library s.path = true)
    (stored : set s ctx (some vars) v setFuel e = .ok w e') :
    (∀ fuel, 0 < fuel → (∃ e'', eval text ctx (some vars) fuel e' = .ok w e'') ∧
      ∃ e'', execute text ctx (some vars) fuel e' = .ok w e'') ∧
    ∀ c e₂ e₃, compile text .standard e₂ = .ok c e₃ → e₀.SameClasses e₂ → c.root ∈ trees →
      ∀ options : EvalOptions, 0 < options.fuel → ∃ e'', evaluate c ctx .null (some vars) options e' = .ok w e'' := by
  obtain ⟨-, -, -, hruntime⟩ := compilePath_of_compileSetter compiled
  have himports : s.runtime.imports = .empty := by rw [hruntime]; rfl
  have hlibrary : s.runtime.library = e.library := by rw [hruntime]; exact same.library.symm
  obtain ⟨hsame, hlead, hlive⟩ := lead?_of_set history known himports plain keeps live acyclic (hlibrary ▸ meets) stored
  have hsame : e₀.SameClasses e' := same.trans hsame
  have hhistory := history.set known (.of_ok stored)
  refine ⟨fun fuel hfuel => ⟨?_, ?_⟩, fun c e₂ e₃ hcompile hsame₂ hknown options hfuel => ?_⟩
  · obtain ⟨c, e₂, hcompile, hreads⟩ := exists_reads compiled plain hsame
    obtain ⟨e₃, he₃⟩ := hreads.evaluate_eq_ok (hhistory.compile hcompile) (List.mem_cons_self ..) plain
      (sameMachine_of_compile hcompile) hlive hlead ⟨.interpreted, false, fuel⟩ hfuel
    exact ⟨e₃, (Run.bind_ok hcompile _).trans he₃⟩
  · obtain ⟨c, e₂, hcompile, hreads⟩ := exists_reads_cached compiled plain hsame hhistory
    obtain ⟨e₃, he₃⟩ := hreads.evaluate_eq_ok (hhistory.compileCached hcompile) (List.mem_cons_self ..) plain
      (sameMachine_of_compileCached hcompile) hlive hlead ⟨.accelerated, false, fuel⟩ hfuel
    exact ⟨e₃, (Run.bind_ok hcompile _).trans he₃⟩
  · have hreads := reads_of_compile compiled plain hsame₂ hcompile
    exact hreads.evaluate_eq_ok hhistory hknown plain ⟨rfl, rfl⟩ hlive hlead options hfuel

/-- A path with safe steps leads through maps and a list. A program that reads it has been specialised when a setter writes
through it; the unit gives what was stored. -/
theorem set_then_evaluate_nested : ∃ (e₀ e₁ e e' : Engine) (trees : List Node) (s : CompiledSetter) (c : CompiledExpression)
    (ctx : Value) (vars : Variables),
    compileSetter "m?.items[0]?.x" e₀ = .ok s e₁ ∧ History e trees ∧ s.node ∈ trees ∧ c.root ∈ trees ∧
      e.stats.installed = 1 ∧ e.machine.store.heap.Acyclic ∧ set s ctx (some vars) (.int 7) 0 e = .ok (.int 7) e' ∧
      (∃ e'', evaluate c ctx .null (some vars) ⟨.accelerated, false, 1⟩ e' = .ok (.int 7) e'') ∧
      ∃ e'', eval "m?.items[0]?.x" ctx (some vars) 1 e' = .ok (.int 7) e'' := by
  let text := "m?.items[0]?.x"
  let e₀ : Engine := .new { Config.standard with optimizer := .specializing } fun _ => 0
  let nested : Heap → Value × Heap := fun h =>
    let item := h.newMap (Dict.empty.insert "x" (.int 1))
    let items := item.2.newList #[item.1]
    let inner := items.2.newMap (Dict.empty.insert "items" items.1)
    inner.2.newMap (Dict.empty.insert "m" inner.1)
  let rank : Ref → Nat := fun
    | .map a => 2 * a
    | _ => 1
  have h : (compileSetter text e₀).okAnd (fun s e₁ =>
      (compile text .standard e₁).okAnd fun c e₂ =>
      (stepStore (Store.making nested) e₂).okAnd fun ctx e₃ =>
      (stepStore Variables.new e₃).okAnd fun vars e₄ =>
      (evaluate c ctx .null (some vars) ⟨.accelerated, false, 1⟩ e₄).okAnd fun _ e =>
      (set s ctx (some vars) (.int 7) 0 e).okAnd fun w _ =>
        decide (s.path.isPlain = true) && decide (e.stats.installed = 1) && decide (w = .int 7) &&
          decide (vars.scope < e.machine.store.scopes.size) &&
          decide ((e.machine.store.scope vars.scope).kind ≠ .imports) &&
          decide (∀ slot ∈ (e.machine.store.scope vars.scope).slots, slot < e.machine.store.slots.size) &&
          e.machine.store.heap.descends rank &&
          vars.meets e.world.classes e.machine.store ctx e.library s.path) = true := by decide +kernel
  simp only [Outcome.okAnd_iff, Bool.and_eq_true, decide_eq_true_eq] at h
  obtain ⟨s, e₁, hsetter, c, e₂, hcompile, ctx, e₃, hctx, vars, e₄, hvars, v, e, hfirst, w, e', hset, ⟨⟨⟨⟨⟨⟨hplain,
      hinstalled⟩, rfl⟩, hscope⟩, hkind⟩, hslots⟩, hrank⟩, hmeets⟩ := h
  have hc : c.root ∈ [c.root, s.node] := List.mem_cons_self ..
  have hs : s.node ∈ [c.root, s.node] := List.mem_cons_of_mem _ (List.mem_singleton_self _)
  have hhistory : History e [c.root, s.node] :=
    .evaluate (.host (.host (.compile (.compileSetter (.start rfl rfl rfl) hsetter) hcompile) (.of_ok hctx)) (.of_ok hvars)) hc
      (.of_ok hfirst)
  have hsame₁ : e₀.SameClasses e₁ := (keeps_of_compileSetter hsetter).1
  have hsame : e₀.SameClasses e :=
    hsame₁.trans <| (keeps_of_compile hcompile).1.trans <| (SameClasses.of_onMachine hctx).trans <|
      (SameClasses.of_onMachine hvars).trans <| SameClasses.of_evaluate hfirst
  have hacyclic := Heap.acyclic_of_descends hrank
  obtain ⟨htexts, hprograms⟩ := set_then_evaluate hsetter hplain (keeps_of_standard hsetter rfl) hhistory hs hsame
    (Variables.live_of_slots hscope hkind hslots) hacyclic hmeets hset
  exact ⟨e₀, e₁, e, e', [c.root, s.node], s, c, ctx, vars, hsetter, hhistory, hs, hc, hinstalled, hacyclic, hset,
    hprograms c e₁ e₂ hcompile hsame₁ hc ⟨.accelerated, false, 1⟩ (by decide), (htexts 1 (by decide)).1⟩

/-- The property `clone` of an array is what a getter of the language makes, a new array each time. A setter that goes on
from there stores in that array, and the path gives what was there before. -/
theorem set_then_evaluate_copied : ∃ (e₀ e₁ e e' : Engine) (trees : List Node) (s : CompiledSetter) (ctx : Value)
    (vars : Variables),
    compileSetter "a.clone[0]" e₀ = .ok s e₁ ∧ s.path.isPlain = true ∧ s.runtime.converter.Keeps ∧ History e trees ∧
      s.node ∈ trees ∧ e₀.SameClasses e ∧ vars.Live e.machine.store ∧ e.machine.store.heap.Acyclic ∧
      set s ctx (some vars) (.int 5) 0 e = .ok (.int 5) e' ∧
      (∃ e'', eval "a.clone[0]" ctx (some vars) 1 e' = .ok (.int 1) e'') ∧
      ∃ e'', execute "a.clone[0]" ctx (some vars) 1 e' = .ok (.int 1) e'' := by
  let e₀ : Engine := .new .standard fun _ => 0
  let withArray : Heap → Value × Heap := fun h =>
    let items := h.newArray #[.int 1]
    items.2.newMap (Dict.empty.insert "a" items.1)
  let rank : Ref → Nat := fun
    | .map _ => 1
    | _ => 0
  have h : (compileSetter "a.clone[0]" e₀).okAnd (fun s e₁ =>
      (stepStore (Store.making withArray) e₁).okAnd fun ctx e₂ =>
      (stepStore Variables.new e₂).okAnd fun vars e =>
      (set s ctx (some vars) (.int 5) 0 e).okAnd fun w e' =>
      (eval "a.clone[0]" ctx (some vars) 1 e').okAnd fun u _ =>
      (execute "a.clone[0]" ctx (some vars) 1 e').okAnd fun u' _ =>
        decide (s.path.isPlain = true) && decide (w = .int 5) && decide (u = .int 1) && decide (u' = .int 1) &&
          decide (vars.scope < e.machine.store.scopes.size) &&
          decide ((e.machine.store.scope vars.scope).kind ≠ .imports) &&
          decide (∀ slot ∈ (e.machine.store.scope vars.scope).slots, slot < e.machine.store.slots.size) &&
          e.machine.store.heap.descends rank) = true := by decide +kernel
  simp only [Outcome.okAnd_iff, Bool.and_eq_true, decide_eq_true_eq] at h
  obtain ⟨s, e₁, hsetter, ctx, e₂, hctx, vars, e, hvars, w, e', hset, u, e₃, heval, u', e₄, hexecute, ⟨⟨⟨⟨⟨⟨hplain,
      rfl⟩, rfl⟩, rfl⟩, hscope⟩, hkind⟩, hslots⟩, hrank⟩ := h
  have hhistory : History e [s.node] := .host (.host (.compileSetter (.start rfl rfl rfl) hsetter) (.of_ok hctx)) (.of_ok hvars)
  have hsame : e₀.SameClasses e :=
    (keeps_of_compileSetter hsetter).1.trans <| (SameClasses.of_onMachine hctx).trans <| SameClasses.of_onMachine hvars
  exact ⟨e₀, e₁, e, e', [s.node], s, ctx, vars, hsetter, hplain, keeps_of_standard hsetter rfl, hhistory,
    List.mem_singleton_self _, hsame, Variables.live_of_slots hscope hkind hslots, Heap.acyclic_of_descends hrank, hset,
    ⟨e₃, heval⟩, e₄, hexecute⟩

end Engine

end PathScript
