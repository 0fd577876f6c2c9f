import PathScript.Access.Walk

/-! # Tiers

A path starts on the general walk and counts how often it is read within a
window of time. When the count exceeds the threshold before the window ends, it
is specialised. A unit of an older generation sends the path back to the
general walk with its count cleared. -/

namespace PathScript

inductive ReadPlan where
  | walk
  | run (unit : SpecializedUnit)
  /-- Walk, and make a unit from what is met. -/
  | specialize

namespace TierState

def fresh (now : Nat) : TierState := ⟨none, 0, now, false⟩

def live? (t : TierState) (generation : Nat) : Option SpecializedUnit :=
  match t.current with
  | some (u, g) => if g = generation then some u else none
  | none => none

def deoptimized (t : TierState) (now : Nat) : TierState :=
  match t.current with
  | some _ => { t with current := none, count := 0, windowStart := now }
  | none => t

def maxCount : Nat := UInt32.size - 1

/-- The plan for a reading without a live unit, and the state it leaves. -/
def advance (t : TierState) (config : Config) (now : Nat) : ReadPlan × TierState :=
  let t := t.deoptimized now
  if config.timeSpan ≤ now - t.windowStart then (.walk, { t with count := 0, windowStart := now })
  else
    let t := { t with count := min (t.count + 1) maxCount }
    if config.tenuringThreshold < t.count && !t.promoting then (.specialize, { t with promoting := true })
    else (.walk, t)

def promoted (t : TierState) (u : SpecializedUnit) (generation : Nat) : TierState :=
  { t with current := some (u, generation), promoting := false }

/-- The state after a specialisation whose unit was dropped at once. -/
def dropped (t : TierState) (now : Nat) : TierState := { t with count := 0, windowStart := now, promoting := false }

def failed (t : TierState) : TierState := { t with promoting := false }

end TierState

namespace UnitState

/-- The plan for a reading in a generation, and the state it leaves. -/
def advance (s : UnitState) (generation : Nat) : ReadPlan × UnitState :=
  match s with
  | pending => (.specialize, specializing)
  | ready u g => if g = generation then (.run u, s) else (.walk, retired)
  | specializing => (.walk, specializing)
  | retired => (.walk, retired)

end UnitState

namespace ReadCell

/-- The type of what the path gives, as far as its unit tells. -/
def egress : ReadCell → Ty
  | specialized (.ready u _) => u.egress
  | dynamic ⟨some (u, _), _, _, _⟩ => u.egress
  | _ => .any

/-- Applies a function to the state of a path that becomes specialised when it is read often. -/
def mapTier (g : TierState → TierState) : ReadCell → ReadCell
  | dynamic t => dynamic (g t)
  | c => c

end ReadCell

namespace Access

variable (ev : Evaluator)

def setCell (cell : CellId) (c : ReadCell) : EvalM Unit :=
  EvalM.modifyAccel fun a => { a with cells := a.cells.set cell c }

def updateTier (cell : CellId) (g : TierState → TierState) : Machine → Machine := fun m =>
  { m with accel := { m.accel with cells := m.accel.cells.update cell (.mapTier g) } }

/-- Reads a path while making a unit for a cell that counts readings. -/
def promote (f : Frame) (path : Path) (cell : CellId) : EvalM Value := do
  let (v, found) ← (SpecializedUnit.make ev f path).onError (updateTier cell .failed)
  match found with
  | some (u, g) => Run.modify (updateTier cell fun t => t.promoted u g)
  | none =>
    let now ← EvalM.now f
    Run.modify (updateTier cell fun t => t.dropped now)
  pure v

/-- Reads a path while making a unit for a cell that is specialised at once. -/
def specialize (f : Frame) (path : Path) (cell : CellId) : EvalM Value := do
  let reset : Machine → Machine := fun m =>
    { m with accel := { m.accel with cells := m.accel.cells.set cell (.specialized .pending) } }
  let (v, found) ← (SpecializedUnit.make ev f path).onError reset
  match found with
  | some (u, g) => setCell cell (.specialized (.ready u g))
  | none => setCell cell (.specialized .retired)
  pure v

def read (f : Frame) (path : Path) (cell : CellId) : EvalM Value := do
  let a ← EvalM.accel
  match (a.cells.get? cell).getD .safe with
  | .safe => Walk.read ev f path
  | .specialized s =>
    let (plan, s) := s.advance a.registry.generation
    setCell cell (.specialized s)
    match plan with
    | .run u => u.run ev f path
    | .specialize => specialize ev f path cell
    | .walk => Walk.read ev f path
  | .dynamic t =>
    match t.live? a.registry.generation with
    | some u => u.run ev f path
    | none =>
      let now ← EvalM.now f
      let (plan, t) := t.advance f.runtime.config now
      setCell cell (.dynamic t)
      match plan with
      | .specialize => promote ev f path cell
      | _ => Walk.read ev f path

end Access

/-! # Sites

In interpreted evaluation every path is walked and every value built from
scratch. In accelerated evaluation the first evaluation of a node leaves behind
in its site how the next ones are done. A first evaluation that fails leaves
nothing, and one that was overtaken by another of the same node (the node can
be reached again while it is evaluated) leaves what is there. -/

namespace Access

variable (ev : Evaluator)

/-! ## Cells -/

def allocCell (c : ReadCell) : EvalM CellId :=
  EvalM.stepAccel fun a =>
    match a.cells.alloc c with
    | (id, cells) => (id, { a with cells := cells })

/-- A cell for a path that has not been read, of the kind that an optimizer uses. -/
def newCell (f : Frame) : OptimizerMode → EvalM CellId
  | .safe => allocCell .safe
  | .specializing => allocCell (.specialized .pending)
  | .dynamic => do
    let now ← EvalM.now f
    allocCell (.dynamic (.fresh now))

/-! ## Reading -/

def readPath (f : Frame) (path : Path) (site : SiteId) : EvalM Value := do
  if f.isInterpreted then Walk.read ev f path
  else
    match (← EvalM.accel).reads.get? site with
    | some cell => read ev f path cell
    | none =>
      let cell ← newCell f f.runtime.config.optimizer
      let v ← read ev f path cell
      EvalM.modifyAccel fun a => { a with reads := a.reads.setNew site cell }
      pure v

/-! ## Writing -/

def container (path : Path) : Path := path.take (path.length - 1)

/-- Writes at a path, reading the container by a cell; a path of one segment has none. -/
def writeVia (f : Frame) (path : Path) (cell : Option CellId) (v : Value) : EvalM Value := do
  match cell with
  | none => Walk.writeRoot f path v
  | some cell =>
    let target ← read ev f (container path) cell
    Walk.writeLast ev f path target v

/-- Reads at a path, reading the container by a cell. -/
def readVia (f : Frame) (path : Path) (cell : Option CellId) : EvalM Value := do
  let receiver ← match cell with
    | none => pure .null
    | some cell => read ev f (container path) cell
  Walk.readLast ev f path receiver

/-- A cell for the container of a path that has not been written. -/
def newContainerCell (f : Frame) (mode : OptimizerMode) (path : Path) : EvalM (Option CellId) := do
  if path.length > 1 then do pure (some (← newCell f mode)) else pure none

/-- Writes at a path from scratch. -/
def writeFresh (f : Frame) (path : Path) (v : Value) : EvalM Value := do
  if path.length > 1 then do
    let target ← Walk.read ev f (container path)
    Walk.writeLast ev f path target v
  else Walk.writeRoot f path v

def writePath (f : Frame) (path : Path) (site : SiteId) (v : Value) : EvalM Value := do
  if f.isInterpreted then writeFresh ev f path v
  else
    match (← EvalM.accel).writes.get? site with
    | some cell => writeVia ev f path cell v
    | none =>
      let cell ← newContainerCell f f.runtime.config.optimizer path
      let stored ← writeVia ev f path cell v
      EvalM.modifyAccel fun a => { a with writes := a.writes.setNew site cell }
      pure stored

/-- The value at a path that is about to be written. -/
def readForUpdate (f : Frame) (path : Path) (site : SiteId) : EvalM Value := do
  if f.isInterpreted then Walk.read ev f path
  else
    match (← EvalM.accel).writes.get? site with
    | some cell => readVia ev f path cell
    | none => Walk.read ev f path

/-! ## New values -/

/-- Stamps a container out of a template, or builds it. -/
def buildVia (f : Frame) (c : CollectionLiteral) (template : Option Template) : EvalM Value :=
  match template with
  | some t => EvalM.stepStore fun st =>
    match t.stamp st.heap with
    | (v, h) => (v, { st with heap := h })
  | none => c.build ev f

/-- What an optimizer keeps of a container that was built. -/
def templateOf (mode : OptimizerMode) (c : CollectionLiteral) (h : Heap) (v : Value) : Option Template :=
  if mode != .safe && c.isConstant then Template.of? h v else none

def buildCollection (f : Frame) (c : CollectionLiteral) (site : SiteId) : EvalM Value := do
  if f.isInterpreted then c.build ev f
  else
    match (← EvalM.accel).collections.get? site with
    | some template => buildVia ev f c template
    | none =>
      let v ← c.build ev f
      let template := templateOf f.runtime.config.optimizer c (← Run.get).store.heap v
      EvalM.modifyAccel fun a => { a with collections := a.collections.setNew site template }
      pure v

def newCreation : OptimizerMode → CreationSite
  | .safe => .plain
  | _ => .cached none

/-- Evaluates a `new` expression by what its site remembers, and gives what the site is to remember. -/
def createVia (f : Frame) (c : Creation) (site : EvalM CreationSite) : EvalM (Value × CreationSite) := do
  let args ← Walk.evalAll ev f c.args
  let types := args.map Value.typeOf
  let fresh : EvalM NewTarget :=
    EvalM.onStore (c.error f) (do Run.ofExcept (c.target f (← Run.get) types))
  match ← site with
  | .plain =>
    let target ← fresh
    pure (← EvalM.onHeap (c.error f) (Creation.make f args target), .plain)
  | .cached last =>
    let st := (← Run.get).store
    let kept := last.filter fun (seen, target) => seen == types && c.isCurrent f st target
    let target ← match kept with
      | some (_, target) => pure target
      | none => fresh
    pure (← EvalM.onHeap (c.error f) (Creation.make f args target), .cached (some (types, target)))

def create (f : Frame) (c : Creation) (site : SiteId) : EvalM Value := do
  if f.isInterpreted then do pure (← c.construct ev f).1
  else
    match (← EvalM.accel).creations.get? site with
    | some _ =>
      let (v, s) ← createVia ev f c do pure (((← EvalM.accel).creations.get? site).getD .plain)
      EvalM.modifyAccel fun a => { a with creations := a.creations.set site s }
      pure v
    | none =>
      let (v, s) ← createVia ev f c (pure (newCreation f.runtime.config.optimizer))
      EvalM.modifyAccel fun a => { a with creations := a.creations.setNew site s }
      pure v

end Access

end PathScript
