import PathScript.Eval
import PathScript.Proofs.Lift
import PathScript.Proofs.Tree

/-! # Lockstep

Two evaluations of one program are run side by side. They can differ in how
nodes are evaluated, in their mode, in what is remembered about the program, or
in parts of the store that the program cannot see. If they do alike wherever
they differ, they do alike throughout: they end with the same value, or with
related errors, or both not at all, and the machines they leave are related.

How machines are related is said at an *index*, which stands for what is known
so far; an index can only grow. What a relation must be like for evaluation to
keep it are its *laws*: one for each way in which evaluation touches scopes, and
a few about the heap and the frame. Nothing is assumed about fuel or the program.

An evaluation in lockstep with itself gives what holds of every single
evaluation: a relation between equal machines is an invariant. -/

namespace PathScript

def Frame.inMode (f : Frame) (mode : Mode) : Frame := { f with mode }

namespace Frame

variable (f : Frame) (mode : Mode)

theorem lookupReceivers_inMode (name : String) (rs : List Value) :
    (f.inMode mode).lookupReceivers name rs = f.lookupReceivers name rs := by
  induction rs with
  | nil => rfl
  | cons r rest ih => simp only [lookupReceivers, ih]; rfl

theorem readName_inMode (name : String) : (f.inMode mode).readName name = f.readName name := by
  simp only [readName, lookupReceivers_inMode]
  rfl

theorem callReceivers_inMode (name : String) (args rs : List Value) :
    (f.inMode mode).callReceivers name args rs = f.callReceivers name args rs := by
  induction rs with
  | nil => rfl
  | cons r rest ih => cases r <;> simp only [callReceivers, ih] <;> rfl

end Frame

theorem EvalM.onStore_readName (locate : Fault → EvalError) (f : Frame) (name : String) :
    EvalM.onStore locate (f.readName name) = (do
      let m ← Run.get
      match m.store.lookup? f.scope name with
      | some v => pure v
      | none =>
        match ← EvalM.onHeap locate (f.lookupReceivers name f.receivers) with
        | some v => pure v
        | none =>
          match f.runtime.library.get? name with
          | some c => pure (.cls c)
          | none => Run.fail (locate (.unresolvable name))) := by
  unfold Frame.readName
  rw [EvalM.onStore_get]
  refine congrArg (Run.get >>= ·) (funext fun m => ?_)
  cases m.store.lookup? f.scope name with
  | some v => exact EvalM.onStore_pure locate v
  | none =>
    dsimp only
    rw [EvalM.onStore_bind]
    refine congrArg (EvalM.onHeap locate _ >>= ·) (funext fun found => ?_)
    cases found with
    | some v => exact EvalM.onStore_pure locate v
    | none =>
      dsimp only
      cases f.runtime.library.get? name with
      | some c => exact EvalM.onStore_pure locate _
      | none => rfl

/-- The state that a computation leaves behind. -/
inductive Outcome.Leaves {σ ε α : Type} : Outcome σ ε α → σ → Prop where
  | ok (a : α) (s : σ) : Leaves (.ok a s) s
  | error (e : ε) (s : σ) : Leaves (.error e s) s

/-- A relation between two evaluations. -/
structure Lockstep where
  /-- What is known about the two. -/
  Index : Type
  le : Index → Index → Prop
  le_refl : ∀ i, le i i
  le_trans : ∀ {i j k}, le i j → le j k → le i k
  /-- Machines at the same point of the two. -/
  Alike : Index → Machine → Machine → Prop
  /-- Frames at the same place of the two. -/
  Frames : Index → Frame → Frame → Prop
  /-- Errors that may stand for each other. -/
  error : EvalError → EvalError → Prop
  error_refl : ∀ e, error e e
  /-- Whether machines belong together after an error as well. -/
  strict : Prop := True
  /-- The nodes that can be met. -/
  Inside : Node → Prop
  /-- The bindings that can be made. -/
  Bindable : Binding → Prop
  /-- Ways to evaluate nodes that can be met beside each other. -/
  Evaluates : Evaluator → Evaluator → Prop := fun _ _ => True

namespace Lockstep

variable (L : Lockstep)

/-- Endings that belong together, at an index that has possibly grown. -/
inductive Joined (i : L.Index) {α : Type} : Outcome Machine EvalError α → Outcome Machine EvalError α → Prop where
  | ok {j : L.Index} {a : α} {m m' : Machine} (le : L.le i j) (alike : L.Alike j m m') : Joined i (.ok a m) (.ok a m')
  | error {j : L.Index} {e e' : EvalError} {m m' : Machine} (le : L.le i j) (related : L.error e e')
      (alike : L.strict → L.Alike j m m') : Joined i (.error e m) (.error e' m')
  | diverged : Joined i .diverged .diverged

/-- Computations that do alike from an index on. -/
def Sim (i : L.Index) {α : Type} (x y : EvalM α) : Prop :=
  ∀ j, L.le i j → ∀ m m', L.Alike j m m' → L.Joined j (x m) (y m')

/-- Evaluators that do alike on every node that can be met. -/
structure Evaluators (ev ev' : Evaluator) : Prop where
  sim : ∀ {i f f' n}, L.Frames i f f' → L.Inside n → L.Sim i (ev f n) (ev' f' n)
  evaluates : L.Evaluates ev ev'

/-- What evaluation within one activation needs of a relation. -/
structure Local : Prop where
  frames_mono : ∀ {i j f f'}, L.le i j → L.Frames i f f' → L.Frames j f f'
  /-- The frames differ in the mode at most. -/
  frames_eq : ∀ {i f f'}, L.Frames i f f' → ∃ mode, f' = f.inMode mode
  with_this : ∀ {i f f'}, L.Frames i f f' → ∀ this, L.Frames i { f with this } { f' with this }
  /-- Frames may be one call deeper, as long as calls may be that deep. -/
  deeper : ∀ {i f f'}, L.Frames i f f' → f.depth + 1 ≤ f.runtime.config.maxCallDepth →
    L.Frames i { f with depth := f.depth + 1 } { f' with depth := f.depth + 1 }
  inside_own : ∀ {n c}, L.Inside n → c ∈ n.own → L.Inside c
  heap : ∀ {i m m'}, L.Alike i m m' → m'.store.heap = m.store.heap
  with_heap : ∀ {i m m'}, L.Alike i m m' → ∀ h, L.Alike i (m.withHeap h) (m'.withHeap h)
  returned : ∀ {i m m'}, L.Alike i m m' → m'.returned = m.returned
  lookup : ∀ {i f f' m m'}, L.Frames i f f' → L.Alike i m m' → ∀ name,
    m'.store.lookup? f.scope name = m.store.lookup? f.scope name
  report : ∀ {i f f'}, L.Frames i f f' → ∀ info, L.Sim i (EvalM.report f info) (EvalM.report f' info)
  storeName : ∀ {i f f'}, L.Frames i f f' → ∀ locate name v register insert,
    L.Sim i (EvalM.onStore locate (f.storeName name v register insert))
      (EvalM.onStore locate (f'.storeName name v register insert))
  bindable_untyped : ∀ v, L.Bindable ⟨v, none⟩
  /-- What was converted to a type may be bound with it. -/
  bindable_converted : ∀ {i f f' v w ty h h'}, L.Frames i f f' → f.runtime.converter.convert v ty h = .ok w h' →
    L.Bindable (.of w (some ty))
  createIn : ∀ {i f f'}, L.Frames i f f' → ∀ name {b}, L.Bindable b → ∀ register,
    L.Sim i (EvalM.stepStore fun st => st.createIn f.scope name b register)
      (EvalM.stepStore fun st => st.createIn f.scope name b register)
  createAt : ∀ {i f f'}, L.Frames i f f' → ∀ k name {b}, L.Bindable b →
    L.Sim i (EvalM.stepStore fun st => st.createAt f.scope k name b)
      (EvalM.stepStore fun st => st.createAt f.scope k name b)
  importInto : ∀ {i f f'}, L.Frames i f f' → ∀ name v,
    L.Sim i (EvalM.stepStore fun st => st.importInto f.scope name v)
      (EvalM.stepStore fun st => st.importInto f.scope name v)
  /-- What follows in a block of its own. -/
  inBlock : ∀ {i f f'} {α : Type} {k k' : Frame → EvalM α}, L.Frames i f f' →
    (∀ j g g', L.le i j → L.Frames j g g' → L.Sim j (k g) (k' g')) →
    L.Sim i (Eval.inScope f .block [] >>= k) (Eval.inScope f' .block [] >>= k')
  /-- What follows with an item of a loop. -/
  inItem : ∀ {i f f'} {α : Type} {k k' : Frame → EvalM α}, L.Frames i f f' → ∀ name {b}, L.Bindable b →
    (∀ j g g', L.le i j → L.Frames j g g' → L.Sim j (k g) (k' g')) →
    L.Sim i (EvalM.stepStore (fun st => st.newSlot b) >>= fun slot => Eval.inScope f .item [(name, some slot)] >>= k)
      (EvalM.stepStore (fun st => st.newSlot b) >>= fun slot => Eval.inScope f' .item [(name, some slot)] >>= k')
  /-- What follows with the registers of a function. -/
  inCall : ∀ {i f f'} {α : Type} {k k' : Chain → EvalM α}, L.Frames i f f' → ∀ fn ∈ f.world.functions,
    (∀ j scope, L.le i j → L.Frames j { f with scope } { f' with scope } → L.Sim j (k scope) (k' scope)) →
    L.Sim i (EvalM.stepStore (fun st => st.push .indexed (fn.registers.map fun name => (name, none)) f.root) >>= k)
      (EvalM.stepStore (fun st => st.push .indexed (fn.registers.map fun name => (name, none)) f.root) >>= k')

/-- What evaluation needs of a relation: it enters functions as well, and notes what they return. -/
structure Lawful : Prop extends L.Local where
  with_returned : ∀ {i m m'}, L.Alike i m m' → ∀ returned, L.Alike i { m with returned } { m' with returned }
  inside_function : ∀ {i f f' fn}, L.Frames i f f' → fn ∈ f.world.functions → L.Inside fn.body
  evaluates : ∀ fuel, L.Evaluates (Eval.node fuel) (Eval.node fuel) := by exact fun _ => trivial

variable {L} {i j : L.Index} {α β : Type} {ev ev' : Evaluator} {f f' : Frame} {n : Node}

/-! ## Rules -/

theorem Joined.weaken {x y : Outcome Machine EvalError α} (h : L.Joined j x y) (hij : L.le i j) : L.Joined i x y := by
  cases h with
  | ok le alike => exact .ok (L.le_trans hij le) alike
  | error le related alike => exact .error (L.le_trans hij le) related alike
  | diverged => exact .diverged

section Leaves

variable {x y : Outcome Machine EvalError α} {m : Machine} (h : L.Joined i x y) (hs : L.strict)
include h hs

theorem Joined.leaves_left (left : x.Leaves m) : ∃ j m', L.le i j ∧ L.Alike j m m' := by
  cases h with
  | ok le alike => cases left; exact ⟨_, _, le, alike⟩
  | error le _ alike => cases left; exact ⟨_, _, le, alike hs⟩
  | diverged => cases left

theorem Joined.leaves_right (left : y.Leaves m) : ∃ j m', L.le i j ∧ L.Alike j m' m := by
  cases h with
  | ok le alike => cases left; exact ⟨_, _, le, alike⟩
  | error le _ alike => cases left; exact ⟨_, _, le, alike hs⟩
  | diverged => cases left

end Leaves

namespace Sim

theorem mono {x y : EvalM α} (h : L.Sim i x y) (hij : L.le i j) : L.Sim j x y :=
  fun k hk => h k (L.le_trans hij hk)

theorem pure (a : α) : L.Sim i (pure a) (pure a) :=
  fun j _ _ _ hm => .ok (L.le_refl j) hm

theorem fail (e : EvalError) : L.Sim i (Run.fail e : EvalM α) (Run.fail e) :=
  fun j _ _ _ hm => .error (L.le_refl j) (L.error_refl e) fun _ => hm

theorem never : L.Sim i (Run.never : EvalM α) Run.never :=
  fun _ _ _ _ _ => .diverged

theorem bind_from {x y : EvalM α} {k k' : α → EvalM β} (hx : L.Sim i x y)
    (hk : ∀ a j, L.le i j → L.Sim j (k a) (k' a)) : L.Sim i (x >>= k) (y >>= k') := by
  intro j hj m m' hm
  have hxj := hx j hj m m' hm
  simp only [Run.bind_apply]
  generalize x m = o at hxj
  generalize y m' = o' at hxj
  cases hxj with
  | ok le alike => exact (hk _ _ (L.le_trans hj le) _ (L.le_refl _) _ _ alike).weaken le
  | error le related alike => exact .error le related alike
  | diverged => exact .diverged

theorem bind {x y : EvalM α} {k k' : α → EvalM β} (hx : L.Sim i x y) (hk : ∀ a, L.Sim i (k a) (k' a)) :
    L.Sim i (x >>= k) (y >>= k') :=
  hx.bind_from fun a _ hj => (hk a).mono hj

/-- A look at the machine; what follows depends on what the two machines have in common. -/
theorem get {k k' : Machine → EvalM β} (hk : ∀ j m m', L.le i j → L.Alike j m m' → L.Sim j (k m) (k' m')) :
    L.Sim i (Run.get >>= k) (Run.get >>= k') :=
  fun j hj m m' hm => hk j m m' hj hm j (L.le_refl j) m m' hm

theorem ite {c c' : Prop} [Decidable c] [Decidable c'] (hc : c ↔ c') {x x' y y' : EvalM α} (hx : L.Sim i x x')
    (hy : L.Sim i y y') : L.Sim i (if c then x else y) (if c' then x' else y') := by
  by_cases h : c
  · rwa [if_pos h, if_pos (hc.mp h)]
  · rwa [if_neg h, if_neg (mt hc.mpr h)]

theorem otherwise {c : Prop} [Decidable c] {x x' y y' : EvalM α} (hx : L.Sim i x x') (hy : ¬c → L.Sim i y y') :
    L.Sim i (if c then x else y) (if c then x' else y') := by
  by_cases h : c
  · rwa [if_pos h, if_pos h]
  · rw [if_neg h, if_neg h]
    exact hy h

theorem modify (g g' : Machine → Machine) (hg : ∀ j m m', L.Alike j m m' → L.Alike j (g m) (g' m')) :
    L.Sim i (Run.modify g) (Run.modify g') :=
  fun j _ m m' hm => .ok (L.le_refl j) (hg j m m' hm)

/-- A change of the store at which the index may grow; what follows may use what is then known. -/
theorem stepStore {P : L.Index → α → Prop} {g : Store → α × Store} {k k' : α → EvalM β}
    (hg : ∀ j m m', L.le i j → L.Alike j m m' → (g m'.store).1 = (g m.store).1 ∧ ∃ n, L.le j n ∧ P n (g m.store).1 ∧
      L.Alike n { m with store := (g m.store).2 } { m' with store := (g m'.store).2 })
    (hk : ∀ j a, L.le i j → P j a → L.Sim j (k a) (k' a)) :
    L.Sim i (EvalM.stepStore g >>= k) (EvalM.stepStore g >>= k') := by
  intro j hj m m' hm
  obtain ⟨hvalue, n, hn, hP, halike⟩ := hg j m m' hj hm
  rw [Run.bind_ok (EvalM.stepStore_apply g m), Run.bind_ok (EvalM.stepStore_apply g m'), hvalue]
  exact (hk n _ (L.le_trans hj hn) hP n (L.le_refl n) _ _ halike).weaken hn

theorem onHeap (heap : ∀ {i m m'}, L.Alike i m m' → m'.store.heap = m.store.heap)
    (with_heap : ∀ {i m m'}, L.Alike i m m' → ∀ h, L.Alike i (m.withHeap h) (m'.withHeap h)) (locate : Fault → EvalError)
    (x : HeapM α) : L.Sim i (EvalM.onHeap locate x) (EvalM.onHeap locate x) := by
  intro j _ m m' hm
  rw [EvalM.onHeap_apply, EvalM.onHeap_apply, heap hm]
  cases x m.store.heap with
  | ok a s => exact .ok (L.le_refl j) (with_heap hm s)
  | error e s => exact .error (L.le_refl j) (L.error_refl _) fun _ => with_heap hm s
  | diverged => exact .diverged

theorem onError {x y : EvalM α} (hx : L.Sim i x y) {g g' : Machine → Machine}
    (hg : ∀ j m m', L.le i j → L.Alike j m m' → L.Alike j (g m) (g' m')) : L.Sim i (x.onError g) (y.onError g') := by
  intro j hj m m' hm
  have hxj := hx j hj m m' hm
  simp only [Run.onError]
  generalize x m = o at hxj
  generalize y m' = o' at hxj
  cases hxj with
  | ok le alike => exact .ok le alike
  | error le related alike => exact .error le related fun hs => hg _ _ _ (L.le_trans hj le) (alike hs)
  | diverged => exact .diverged

end Sim

namespace Local

variable (h : L.Local)
include h

theorem query (g : Heap → Option α) :
    L.Sim i (Run.query fun m => g m.store.heap) (Run.query fun m => g m.store.heap) := by
  intro j _ m m' hm
  simp only [Run.query, h.heap hm]
  cases g m.store.heap with
  | some a => exact .ok (L.le_refl j) hm
  | none => exact .diverged

theorem onHeap (locate : Fault → EvalError) (x : HeapM α) : L.Sim i (EvalM.onHeap locate x) (EvalM.onHeap locate x) :=
  .onHeap h.heap h.with_heap locate x

theorem stepHeap (g : Heap → α × Heap) :
    L.Sim i (EvalM.stepStore fun st => match g st.heap with | (v, h) => (v, { st with heap := h }))
      (EvalM.stepStore fun st => match g st.heap with | (v, h) => (v, { st with heap := h })) := by
  intro j _ m m' hm
  rw [EvalM.stepStore_apply, EvalM.stepStore_apply, h.heap hm]
  exact .ok (L.le_refl j) (h.with_heap hm _)

theorem frames_agree (hf : L.Frames i f f') : f'.scope = f.scope ∧ f'.runtime = f.runtime ∧ f'.host = f.host ∧
    f'.errorIn = f.errorIn ∧ f'.errorOn = f.errorOn := by
  obtain ⟨mode, rfl⟩ := h.frames_eq hf
  exact ⟨rfl, rfl, rfl, rfl, rfl⟩

theorem onStore_readName (hf : L.Frames i f f') (locate : Fault → EvalError) (name : String) :
    L.Sim i (EvalM.onStore locate (f.readName name)) (EvalM.onStore locate (f'.readName name)) := by
  obtain ⟨mode, rfl⟩ := h.frames_eq hf
  rw [Frame.readName_inMode, EvalM.onStore_readName]
  refine .get fun j m m' hj hm => ?_
  rw [h.lookup (h.frames_mono hj hf) hm name]
  cases m.store.lookup? f.scope name with
  | some v => exact .pure v
  | none =>
    refine (h.onHeap locate _).bind fun found => ?_
    cases found with
    | some v => exact .pure v
    | none =>
      cases f.runtime.library.get? name with
      | some c => exact .pure _
      | none => exact .fail _

end Local

/-! ## An evaluation and itself -/

/-- The relation between an evaluation and itself that says what holds of its machines and frames. -/
def self {Index : Type} (le : Index → Index → Prop) (le_refl : ∀ i, le i i)
    (le_trans : ∀ {i j k}, le i j → le j k → le i k) (State : Index → Machine → Prop) (Place : Index → Frame → Prop)
    (Bindable : Binding → Prop) (Inside : Node → Prop := fun _ => True) : Lockstep where
  Index := Index
  le := le
  le_refl := le_refl
  le_trans := le_trans
  Alike := fun i m m' => m' = m ∧ State i m
  Frames := fun i f f' => f' = f ∧ Place i f
  error := Eq
  error_refl := fun _ => rfl
  Inside := Inside
  Bindable := Bindable

theorem Joined.eq_of_self {Index : Type} {le : Index → Index → Prop} {le_refl : ∀ i, le i i}
    {le_trans : ∀ {i j k}, le i j → le j k → le i k} {State : Index → Machine → Prop} {Place : Index → Frame → Prop}
    {Bindable : Binding → Prop} {Inside : Node → Prop} {i : Index} {x y : Outcome Machine EvalError α}
    (h : (self le le_refl le_trans State Place Bindable Inside).Joined i x y) : y = x := by
  cases h with
  | ok _ alike => rw [alike.1]
  | error _ related alike => rw [(alike trivial).1, show _ = _ from related]
  | diverged => rfl

/-! ## Relations between evaluations on the same store -/

variable (L) in
/-- Machines that have all but what is remembered in common, and frames that may have any scopes. -/
structure SameStore : Prop where
  store : ∀ {i m m'}, L.Alike i m m' → m'.store = m.store
  returned : ∀ {i m m'}, L.Alike i m m' → m'.returned = m.returned
  events : ∀ {i m m'}, L.Alike i m m' → m'.events = m.events
  with_store : ∀ {i m m'}, L.Alike i m m' → ∀ store, L.Alike i { m with store } { m' with store }
  with_returned : ∀ {i m m'}, L.Alike i m m' → ∀ returned, L.Alike i { m with returned } { m' with returned }
  with_events : ∀ {i m m'}, L.Alike i m m' → ∀ events, L.Alike i { m with events } { m' with events }
  frames_mono : ∀ {i j f f'}, L.le i j → L.Frames i f f' → L.Frames j f f'
  frames_eq : ∀ {i f f'}, L.Frames i f f' → ∃ mode, f' = f.inMode mode
  with_scope : ∀ {i f f'}, L.Frames i f f' → ∀ scope, L.Frames i { f with scope } { f' with scope }
  with_this : ∀ {i f f'}, L.Frames i f f' → ∀ this, L.Frames i { f with this } { f' with this }
  deeper : ∀ {i f f'}, L.Frames i f f' → f.depth + 1 ≤ f.runtime.config.maxCallDepth →
    L.Frames i { f with depth := f.depth + 1 } { f' with depth := f.depth + 1 }
  inside_own : ∀ {n c}, L.Inside n → c ∈ n.own → L.Inside c
  inside_function : ∀ {i f f' fn}, L.Frames i f f' → fn ∈ f.world.functions → L.Inside fn.body
  bindable : ∀ b, L.Bindable b
  evaluates : ∀ fuel, L.Evaluates (Eval.node fuel) (Eval.node fuel) := by exact fun _ => trivial

/-- What holds of an evaluation if it depends on what is remembered and on the world at most. -/
theorem sameStore_self {Index : Type} {le : Index → Index → Prop} (le_refl : ∀ i, le i i)
    (le_trans : ∀ {i j k}, le i j → le j k → le i k) (Memory : Index → Accelerator → Prop)
    (Place : World → Runtime → Mode → Prop) {Inside : Node → Prop}
    (inside_own : ∀ {n c}, Inside n → c ∈ n.own → Inside c)
    (inside_function : ∀ {f : Frame} {fn}, Place f.world f.runtime f.mode → fn ∈ f.world.functions → Inside fn.body) :
    (self le le_refl le_trans (fun i m => Memory i m.accel) (fun _ f => Place f.world f.runtime f.mode) (fun _ => True)
      Inside).SameStore where
  store := fun h => by rw [h.1]
  returned := fun h => by rw [h.1]
  events := fun h => by rw [h.1]
  with_store := fun h _ => ⟨by rw [h.1], h.2⟩
  with_returned := fun h _ => ⟨by rw [h.1], h.2⟩
  with_events := fun h _ => ⟨by rw [h.1], h.2⟩
  frames_mono := fun _ h => h
  frames_eq := fun h => ⟨_, h.1⟩
  with_scope := fun h _ => ⟨by rw [h.1], h.2⟩
  with_this := fun h _ => ⟨by rw [h.1], h.2⟩
  deeper := fun h _ => ⟨by rw [h.1], h.2⟩
  inside_own := inside_own
  inside_function := fun h hfn => inside_function h.2 hfn
  bindable := fun _ => trivial

namespace SameStore

variable (h : L.SameStore)
include h

theorem stepStore (g : Store → α × Store) : L.Sim i (EvalM.stepStore g) (EvalM.stepStore g) := by
  intro j _ m m' hm
  rw [EvalM.stepStore_apply, EvalM.stepStore_apply, h.store hm]
  exact .ok (L.le_refl j) (h.with_store hm _)

theorem onStore (locate : Fault → EvalError) (x : StoreM α) :
    L.Sim i (EvalM.onStore locate x) (EvalM.onStore locate x) := by
  intro j _ m m' hm
  rw [EvalM.onStore_apply, EvalM.onStore_apply, h.store hm]
  cases x m.store with
  | ok a st => exact .ok (L.le_refl j) (h.with_store hm st)
  | error e st => exact .error (L.le_refl j) (L.error_refl _) fun _ => h.with_store hm st
  | diverged => exact .diverged

theorem report (hf : L.Frames i f f') (info : Info) : L.Sim i (EvalM.report f info) (EvalM.report f' info) := by
  obtain ⟨mode, rfl⟩ := h.frames_eq hf
  unfold EvalM.report
  simp only [Frame.inMode]
  split
  next line _ _ =>
    refine .modify _ _ fun j m m' hm => ?_
    have noted := h.with_events hm (⟨f.runtime.sourceName, line, f.scope, m.store⟩ :: m.events)
    simpa only [h.store hm, h.events hm] using noted
  next => exact .pure ()

theorem inScope {k k' : Frame → EvalM α} (kind : ScopeKind) (cells : List (String × Option SlotId))
    (hf : L.Frames i f f') (hk : ∀ j g g', L.le i j → L.Frames j g g' → L.Sim j (k g) (k' g')) :
    L.Sim i (Eval.inScope f kind cells >>= k) (Eval.inScope f' kind cells >>= k') := by
  have hscope : f'.scope = f.scope := by obtain ⟨mode, rfl⟩ := h.frames_eq hf; rfl
  simp only [Eval.inScope, bind_assoc, pure_bind, hscope]
  exact (h.stepStore _).bind_from fun chain j hj => hk j _ _ hj (h.with_scope (h.frames_mono hj hf) chain)

theorem lawful : L.Lawful where
  frames_mono := h.frames_mono
  frames_eq := h.frames_eq
  with_this := h.with_this
  deeper := h.deeper
  inside_own := h.inside_own
  inside_function := h.inside_function
  heap := fun hm => by rw [h.store hm]
  with_heap := fun hm s => by
    simp only [Machine.withHeap, h.store hm]
    exact h.with_store hm _
  returned := h.returned
  with_returned := h.with_returned
  evaluates := h.evaluates
  lookup := fun _ hm _ => by rw [h.store hm]
  report := h.report
  storeName := fun hf locate name v register insert => by
    obtain ⟨mode, rfl⟩ := h.frames_eq hf
    exact h.onStore locate _
  bindable_untyped := fun _ => h.bindable _
  bindable_converted := fun _ _ => h.bindable _
  createIn := fun _ _ _ _ _ => h.stepStore _
  createAt := fun _ _ _ _ _ => h.stepStore _
  importInto := fun _ _ _ => h.stepStore _
  inBlock := fun hf hk => h.inScope .block [] hf hk
  inItem := fun hf _ _ _ hk => (h.stepStore _).bind_from fun _ _ hj =>
    h.inScope .item _ (h.frames_mono hj hf) fun k g g' hle => hk k g g' (L.le_trans hj hle)
  inCall := fun hf _ _ hk => (h.stepStore _).bind_from fun chain j hj =>
    hk j chain hj (h.with_scope (h.frames_mono hj hf) chain)

end SameStore

end Lockstep

end PathScript
