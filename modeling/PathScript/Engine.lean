import PathScript.Compile
import PathScript.Eval

/-! # Engines

An engine holds a configuration, the classes and conversions of the host, the
functions of the programs it has compiled, and the machine they run on. What it
does to itself is a computation over it; what can go wrong is a compile error or
an evaluation error. -/

namespace PathScript

/-- What can go wrong with a source text. -/
inductive Error where
  | compile (e : CompileError)
  | eval (e : EvalError)

structure CompiledExpression where
  root : Node
  source : String
  runtime : Runtime

def CompiledExpression.egressType (c : CompiledExpression) : Ty := c.root.egress

structure CompiledSetter where
  path : Path
  site : SiteId
  runtime : Runtime

structure EvalOptions where
  mode : Mode
  /-- Whether statements are reported. -/
  watched : Bool
  /-- A bound on nesting and iteration. -/
  fuel : Nat

structure Engine where
  config : Config
  converter : Converter
  library : ClassLibrary
  world : World
  nextSite : SiteId
  cache : Dict CompiledExpression
  machine : Machine

abbrev EngineM := Run Engine Error

namespace Engine

/-! ## Setting up -/

def new (config : Config) (clock : Nat → Nat) : Engine :=
  { config
    converter := ConversionRegistry.empty.converter
    library := .standard
    world := ⟨.standard, #[], #[], clock⟩
    nextSite := 0
    cache := .empty
    machine := .start config.tenureCeiling }

instance : Inhabited Engine := ⟨.new .standard fun _ => 0⟩

def withConverter (e : Engine) (c : Converter) : Engine := { e with converter := c }

/-- Adds a class of the host that programs meet only through its values. -/
def withHiddenClass (e : Engine) (c : ClassDef) : ClassRef × Engine :=
  match e.world.classes.add c with
  | (ref, classes) => (ref, { e with world := { e.world with classes := classes } })

/-- Adds a class of the host that programs can name. -/
def withClass (e : Engine) (c : ClassDef) : ClassRef × Engine :=
  match e.withHiddenClass c with
  | (ref, e) => (ref, { e with library := e.library.register ref })

def withNative (e : Engine) (n : NativeFunction) : Value × Engine :=
  (.native ⟨e.world.natives.size, n.name⟩,
    { e with world := { e.world with natives := e.world.natives.push n } })

/-! ## The machine of an engine -/

/-- The machine, and the engine around it. -/
@[always_inline, inline]
def splitMachine : Engine → Machine × (Machine → Engine)
  | ⟨config, converter, library, world, nextSite, cache, machine⟩ =>
    (machine, fun m => ⟨config, converter, library, world, nextSite, cache, m⟩)

/-- Runs a computation over the machine. -/
def onMachine {α : Type} (x : EvalM α) : EngineM α :=
  Run.zoom splitMachine (Run.mapError .eval x)

def stepStore {α : Type} (f : Store → α × Store) : EngineM α := onMachine (EvalM.stepStore f)

def stats (e : Engine) : RegistryStats := e.machine.accel.registry.stats

def evictAll : EngineM Nat :=
  onMachine (EvalM.stepAccel fun a =>
    match a.registry.evictAll with
    | (n, r) => (n, { a with registry := r }))

def setCeiling (n : Nat) : EngineM Unit :=
  onMachine (EvalM.modifyAccel fun a => { a with registry := a.registry.setCeiling n })

/-! ## Compiling -/

def runtime (e : Engine) (options : CompileOptions) : Runtime :=
  ⟨e.config, e.converter, e.library, options.sourceName, options.imports⟩

def compileEnv (e : Engine) (source : String) (options : CompileOptions) : Compile.Env :=
  ⟨source.toList, options, e.world.classes, e.library⟩

/-- Takes in what a compilation has made. -/
def adopt {α : Type} (c : Compiled α) (e : Engine) : Engine :=
  { e with
    nextSite := c.nextSite
    world := { e.world with functions := e.world.functions ++ c.functions.toArray } }

def compile (source : String) (options : CompileOptions) : EngineM CompiledExpression := do
  let e ← Run.get
  match compileProgram (e.compileEnv source options) e.nextSite e.world.functions.size with
  | .error err => Run.fail (.compile err)
  | .ok c => do
    Run.modify (adopt c)
    pure ⟨c.tree, source, e.runtime options⟩

/-- Keeps a compiled program under its source. A full cache is emptied first. -/
def remember (c : CompiledExpression) (e : Engine) : Engine :=
  let kept := if max e.config.cacheCapacity 1 ≤ e.cache.size then .empty else e.cache
  { e with cache := kept.insert c.source c }

/-- Compiles a program without options, or finds it in the cache. -/
def compileCached (source : String) : EngineM CompiledExpression := do
  match (← Run.get).cache.get? source with
  | some c => pure c
  | none => do
    let c ← compile source .standard
    Run.modify (remember c)
    pure c

def clearCache : EngineM Unit := Run.modify fun e => { e with cache := .empty }

def compileSetter (path : String) : EngineM CompiledSetter := do
  let e ← Run.get
  match compilePath (e.compileEnv path .standard) e.nextSite e.world.functions.size with
  | .error err => Run.fail (.compile err)
  | .ok c => do
    Run.modify (adopt { c with nextSite := c.nextSite + 1 })
    pure ⟨c.tree, c.nextSite, e.runtime .standard⟩

/-! ## Evaluating -/

/-- Binds imports in front of variables. -/
def rootChain (imports : Dict Value) (vars : Option Variables) (st : Store) : Chain × Store :=
  match (match vars with
    | some v => (v, st)
    | none => Variables.new st) with
  | (v, st) =>
    match st.push .imports [] [v.scope] with
    | (chain, st) =>
      (chain, imports.entries.foldl (fun st (name, v) => (st.importInto chain name v).2) st)

def frame (runtime : Runtime) (ctx this : Value) (vars : Option Variables) (mode : Mode) (watched : Bool) :
    EngineM Frame := do
  let world := (← Run.get).world
  let chain ← stepStore (rootChain runtime.imports vars)
  Run.modify fun e => { e with machine := { e.machine with returned := none, events := [] } }
  pure ⟨world, runtime, ctx, this, chain, chain, mode, watched, 0⟩

def evaluate (c : CompiledExpression) (ctx this : Value) (vars : Option Variables) (options : EvalOptions) :
    EngineM Value := do
  let f ← frame c.runtime ctx this vars options.mode options.watched
  onMachine (Eval.program options.fuel f c.root)

/-- Compiles through the cache, and evaluates accelerated. -/
def execute (source : String) (ctx : Value) (vars : Option Variables) (fuel : Nat) : EngineM Value := do
  let c ← compileCached source
  evaluate c ctx .null vars ⟨.accelerated, false, fuel⟩

/-- Compiles and evaluates once, interpreted; nothing is kept. -/
def eval (source : String) (ctx : Value) (vars : Option Variables) (fuel : Nat) : EngineM Value := do
  let c ← compile source .standard
  evaluate c ctx .null vars ⟨.interpreted, false, fuel⟩

/-- Writes a value at an assignment target, and gives what was stored. -/
def set (s : CompiledSetter) (ctx : Value) (vars : Option Variables) (v : Value) (fuel : Nat) : EngineM Value := do
  let f ← frame s.runtime ctx .null vars .accelerated false
  onMachine (Access.writePath (Eval.node fuel) f s.path s.site v)

end Engine

end PathScript
