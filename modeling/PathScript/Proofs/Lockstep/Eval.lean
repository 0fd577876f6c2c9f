import Mathlib.Tactic.Tauto
import PathScript.Proofs.Lockstep.Walk

/-! # Evaluation in lockstep

One lemma for each form of node, in the order of the evaluator. All of them are
the same argument: the parts do alike, and what is done with their values is the
same on both sides. What is left to show about a pair of evaluations is what
they do at sites. -/

namespace PathScript.Lockstep

variable {L : Lockstep} {i : L.Index} {α : Type} {ev ev' : Evaluator} {f f' : Frame} {n : Node} {info : Info}
  {target : Target}

/-! ## Sites

What the two evaluations have to do alike, for every node that can be met. -/

variable (L) in
/-- The two evaluations do alike at every site, if they do alike on the parts of a node. -/
structure Sites : Prop where
  readPath : ∀ {i ev ev' f f' n path site}, L.Evaluators ev ev' → L.Frames i f f' → L.Inside n →
    n.kind = .property path site → L.Sim i (Access.readPath ev f path site) (Access.readPath ev' f' path site)
  writePath : ∀ {i ev ev' f f' n path site}, L.Evaluators ev ev' → L.Frames i f f' → L.Inside n →
    n.target? = some (.path path site) → ∀ v,
    L.Sim i (Access.writePath ev f path site v) (Access.writePath ev' f' path site v)
  readForUpdate : ∀ {i ev ev' f f' n path site}, L.Evaluators ev ev' → L.Frames i f f' → L.Inside n →
    n.updated? = some (.path path site) →
    L.Sim i (Access.readForUpdate ev f path site) (Access.readForUpdate ev' f' path site)
  buildCollection : ∀ {i ev ev' f f' n literal site}, L.Evaluators ev ev' → L.Frames i f f' → L.Inside n →
    n.kind = .collection literal site →
    L.Sim i (Access.buildCollection ev f literal site) (Access.buildCollection ev' f' literal site)
  create : ∀ {i ev ev' f f' n creation site}, L.Evaluators ev ev' → L.Frames i f f' → L.Inside n →
    n.kind = .newObject creation site →
    L.Sim i (Access.create ev f creation site) (Access.create ev' f' creation site)
  shapeOf : ∀ {i f f' n item ty subject body site}, L.Frames i f f' → L.Inside n →
    n.kind = .forEach item ty subject body site → ∀ v,
    L.Sim i (Eval.shapeOf f site v) (Eval.shapeOf f' site v)
  regexMatch : ∀ {i ev ev' f f' n subject pattern compiled}, L.Evaluators ev ev' → L.Frames i f f' → L.Inside n →
    n.kind = .regexMatch subject pattern compiled →
    L.Sim i (Eval.regexMatch ev f n.info subject pattern compiled)
      (Eval.regexMatch ev' f' n.info subject pattern compiled)

variable (L) in
/-- Names are bound alike with one register and with another. -/
structure SameRegister (i : L.Index) (f f' : Frame) (register register' : Option Nat) : Prop where
  storeName : ∀ locate name v insert, L.Sim i (EvalM.onStore locate (f.storeName name v register insert))
    (EvalM.onStore locate (f'.storeName name v register' insert))
  createIn : ∀ name {b}, L.Bindable b → L.Sim i (EvalM.stepStore fun st => st.createIn f.scope name b register)
    (EvalM.stepStore fun st => st.createIn f.scope name b register')

/-! ## Parts of evaluation -/

variable (L) in
/-- The two evaluations do alike where they note what is returned and where they enter a function. -/
structure Crossings : Prop where
  setReturn : ∀ {i n value}, L.Inside n → n.kind = .returns value → ∀ v, L.Sim i (Eval.setReturn v) (Eval.setReturn v)
  callFunction : ∀ {i ev ev' f f' fn}, L.Evaluators ev ev' → L.Frames i f f' → fn ∈ f.world.functions → ∀ info args,
    L.Sim i (Eval.callFunction ev f info fn args) (Eval.callFunction ev' f' info fn args)

namespace Local

variable (hL : L.Local)
include hL

theorem hasReturned : L.Sim i Eval.hasReturned Eval.hasReturned :=
  .get fun _ _ _ _ h => by rw [hL.returned h]; exact .pure _

theorem converted (hf : L.Frames i f f') (info : Info) (v : Value) (ty : Ty) {k k' : Value → EvalM α}
    (hk : ∀ w, L.Bindable (.of w (some ty)) → L.Sim i (k w) (k' w)) :
    L.Sim i (EvalM.onHeap (f.errorIn info) (f.runtime.converter.convert v ty) >>= k)
      (EvalM.onHeap (f'.errorIn info) (f'.runtime.converter.convert v ty) >>= k') := by
  obtain ⟨mode, rfl⟩ := hL.frames_eq hf
  intro j hj m m' hm
  simp only [Run.bind_apply, EvalM.onHeap_apply, hL.heap hm]
  cases hconvert : f.runtime.converter.convert v ty m.store.heap with
  | ok w h =>
    simp only [Frame.inMode, hconvert]
    exact hk w (hL.bindable_converted hf hconvert) j hj _ _ (hL.with_heap hm h)
  | error e h =>
    simp only [Frame.inMode, hconvert]
    exact .error (L.le_refl j) (L.error_refl _) fun _ => hL.with_heap hm h
  | diverged =>
    simp only [Frame.inMode, hconvert]
    exact .diverged

theorem sameRegister (hf : L.Frames i f f') (register : Option Nat) : L.SameRegister i f f' register register :=
  ⟨fun locate name v => hL.storeName hf locate name v register, fun name _ hb => hL.createIn hf name hb register⟩

theorem applyOperator (hf : L.Frames i f f') (info : Info) (op : Operator) (l r : Value) :
    L.Sim i (Eval.applyOperator f info op l r) (Eval.applyOperator f' info op l r) := by
  obtain ⟨mode, rfl⟩ := hL.frames_eq hf
  exact hL.onHeap _ _

section Control

variable {cond step : Option Node} {body : Node} (hc : ∀ n ∈ cond, L.Inside n) (hs : ∀ n ∈ step, L.Inside n)
  (hb : L.Inside body) (hev : L.Evaluators ev ev') (hf : L.Frames i f f')
include hev hf

theorem condition (hn : L.Inside n) : L.Sim i (Eval.condition ev f n) (Eval.condition ev' f' n) := by
  refine (hev.sim hf hn).bind fun v => ?_
  obtain ⟨mode, rfl⟩ := hL.frames_eq hf
  cases v with
  | bool b => exact .pure b
  | _ => exact (hL.query fun h => Value.text h _).bind fun _ => .fail _

theorem statements {ns : List Node} (hns : ∀ n ∈ ns, L.Inside n) (last : Value) :
    L.Sim i (Eval.statements ev f ns last) (Eval.statements ev' f' ns last) := by
  induction ns generalizing last with
  | nil => exact .pure _
  | cons n rest ih =>
    refine (hL.report hf n.info).bind fun _ => ?_
    refine (hev.sim hf (hns n (by simp))).bind fun v => ?_
    refine hL.hasReturned.bind fun returned => ?_
    cases returned with
    | true => exact .pure v
    | false => exact ih (fun m hm => hns m (by simp [hm])) v

theorem block {ns : List Node} (hns : ∀ n ∈ ns, L.Inside n) (ownScope : Bool) :
    L.Sim i (Eval.block ev f ns ownScope) (Eval.block ev' f' ns ownScope) := by
  unfold Eval.block
  cases ownScope with
  | true => exact hL.inBlock hf fun _ _ _ _ hg => hL.statements hev hg hns _
  | false => simpa using hL.statements hev hf hns _

theorem unscoped (hn : L.Inside n) : L.Sim i (Eval.unscoped ev f n) (Eval.unscoped ev' f' n) := by
  unfold Eval.unscoped
  split
  next stmts own hk =>
    refine hL.statements hev hf (fun m hm => hL.inside_own hn ?_) _
    simpa only [Node.own, Node.children, hk] using hm
  next => exact hev.sim hf hn

theorem ifChain {otherwise : Option Node} (ho : ∀ n ∈ otherwise, L.Inside n) {branches : List (Node × Node)}
    (hb : ∀ b ∈ branches, L.Inside b.1 ∧ L.Inside b.2) :
    L.Sim i (Eval.ifChain ev f otherwise branches) (Eval.ifChain ev' f' otherwise branches) := by
  induction branches with
  | nil =>
    cases otherwise with
    | some n => exact hev.sim hf (ho n rfl)
    | none => exact .pure _
  | cons b rest ih =>
    obtain ⟨hc, hn⟩ := hb b (by simp)
    refine (hL.condition hev hf hc).bind fun holds => ?_
    cases holds with
    | true => exact hev.sim hf hn
    | false => exact ih fun b hb' => hb b (by simp [hb'])

/-! ### Loops -/

theorem goesOn (kind : LoopKind) {cond : Option Node}
    (hc : ∀ n ∈ cond, L.Inside n) : L.Sim i (Eval.goesOn ev f kind cond) (Eval.goesOn ev' f' kind cond) := by
  unfold Eval.goesOn
  cases cond with
  | none => exact .pure _
  | some n => exact (hL.condition hev hf (hc n rfl)).bind fun _ => .pure _

omit hL in
theorem perform {node : Option Node}
    (hn : ∀ n ∈ node, L.Inside n) : L.Sim i (Eval.perform ev f node) (Eval.perform ev' f' node) := by
  cases node with
  | none => exact .pure _
  | some n => exact (hev.sim hf (hn n rfl)).bind fun _ => .pure _

include hc hs hb

theorem iterate (kind : LoopKind) (fuel : Nat) :
    L.Sim i (Eval.iterate ev f kind cond step body fuel) (Eval.iterate ev' f' kind cond step body fuel) := by
  induction fuel with
  | zero => exact .never
  | succ fuel ih =>
    refine (hev.sim hf hb).bind fun _ => hL.hasReturned.bind fun returned => ?_
    cases returned with
    | true => exact .pure _
    | false =>
      refine (perform hev hf hs).bind fun _ => (hL.goesOn hev hf kind hc).bind fun goes => ?_
      cases goes with
      | true => exact ih
      | false => exact .pure _

theorem turns (fuel : Nat) (kind : LoopKind) :
    L.Sim i (Eval.turns ev fuel f kind cond step body) (Eval.turns ev' fuel f' kind cond step body) := by
  unfold Eval.turns
  split
  · exact hL.iterate hc hs hb hev hf kind fuel
  · refine (hL.goesOn hev hf kind hc).bind fun goes => ?_
    cases goes with
    | true => exact hL.iterate hc hs hb hev hf kind fuel
    | false => exact .pure _

theorem loop (fuel : Nat) (kind : LoopKind) {init : Option Node} (hi : ∀ n ∈ init, L.Inside n) :
    L.Sim i (Eval.loop ev fuel f kind init cond step body) (Eval.loop ev' fuel f' kind init cond step body) := by
  have started : ∀ j g g', L.le i j → L.Frames j g g' → L.Sim j
      (Eval.perform ev g init >>= fun _ => Eval.turns ev fuel g kind cond step body)
      (Eval.perform ev' g' init >>= fun _ => Eval.turns ev' fuel g' kind cond step body) :=
    fun j g g' _ hg => (perform hev hg hi).bind fun _ => hL.turns hc hs hb hev hg fuel kind
  unfold Eval.loop
  by_cases hk : kind = .forLoop
  · simp only [if_pos hk]
    exact hL.inBlock hf started
  · simp only [if_neg hk, pure_bind]
    exact started i f f' (L.le_refl i) hf

end Control

/-! ### Items -/

section Each

variable {e : Eval.Each} (hf : L.Frames i e.frame f') (hb : L.Inside e.body)
include hf hb

theorem runItem (hev : L.Evaluators ev ev') (v : Value) :
    L.Sim i (e.runItem ev v) (Eval.Each.runItem ev' { e with frame := f' } v) := by
  obtain ⟨g, info, item, ty, body⟩ := e
  have bound : ∀ v : Value, L.Bindable (.of v ty) → L.Sim i
      (EvalM.stepStore (fun st => st.newSlot (.of v ty)) >>= fun slot =>
        Eval.inScope g .item [(item, some slot)] >>= fun h => Eval.unscoped ev h body >>= fun _ => pure ())
      (EvalM.stepStore (fun st => st.newSlot (.of v ty)) >>= fun slot =>
        Eval.inScope f' .item [(item, some slot)] >>= fun h => Eval.unscoped ev' h body >>= fun _ => pure ()) :=
    fun v hv => hL.inItem hf item hv fun _ _ _ _ hh => (hL.unscoped hev hh hb).bind fun _ => .pure _
  unfold Eval.Each.runItem
  cases ty with
  | none => exact bound v (hL.bindable_untyped v)
  | some ty => exact hL.converted hf info v ty bound

theorem overItems (hev : L.Evaluators ev ev') (vs : List Value) :
    L.Sim i (e.overItems ev vs) (Eval.Each.overItems ev' { e with frame := f' } vs) := by
  induction vs with
  | nil => exact .pure _
  | cons v rest ih =>
    refine (hL.runItem hf hb hev v).bind fun _ => hL.hasReturned.bind fun returned => ?_
    cases returned with
    | true => exact .pure _
    | false => exact ih

theorem overRange (hev : L.Evaluators ev ev') (n left : Nat) :
    L.Sim i (e.overRange ev n left) (Eval.Each.overRange ev' { e with frame := f' } n left) := by
  induction left with
  | zero => exact .pure _
  | succ left ih =>
    refine (hL.runItem hf hb hev _).bind fun _ => hL.hasReturned.bind fun returned => ?_
    cases returned with
    | true => exact .pure _
    | false => exact ih

theorem runItems (hev : L.Evaluators ev ev') (v : Value) :
    L.Sim i (e.run ev v) (Eval.Each.run ev' { e with frame := f' } v) := by
  cases v with
  | int n => exact hL.overRange hf hb hev _ _
  | _ =>
    refine .get fun j m m' hj h => ?_
    rw [hL.heap h]
    exact (hL.overItems hf hb hev _).mono hj

end Each

theorem bindParams {chain : Chain} (hf : L.Frames i { f with scope := chain } { f' with scope := chain }) (info : Info)
    (params : List Param) : ∀ (k : Nat) (args : List Value),
    L.Sim i (Eval.bindParams f info chain k params args) (Eval.bindParams f' info chain k params args) := by
  induction params with
  | nil => intro k args; exact .pure _
  | cons p rest ih =>
    intro k args
    cases args with
    | nil => exact .pure _
    | cons v args =>
      have bound : ∀ v : Value, L.Bindable (.of v p.ty) → L.Sim i
          (EvalM.stepStore (fun st => st.createAt chain k p.name (.of v p.ty)) >>= fun _ =>
            Eval.bindParams f info chain (k + 1) rest args)
          (EvalM.stepStore (fun st => st.createAt chain k p.name (.of v p.ty)) >>= fun _ =>
            Eval.bindParams f' info chain (k + 1) rest args) :=
        fun v hv => (hL.createAt hf k p.name hv).bind fun _ => ih (k + 1) args
      unfold Eval.bindParams
      cases hty : p.ty with
      | none =>
        rw [hty] at bound
        simpa only [pure_bind] using bound v (hL.bindable_untyped v)
      | some ty =>
        rw [hty] at bound
        exact hL.converted hf info v ty bound

variable (hev : L.Evaluators ev ev') (hf : L.Frames i f f')
include hev hf

theorem forEach (hS : L.Sites) (hn : L.Inside n) {item : String} {ty : Option Ty} {subject body : Node} {site : SiteId}
    (hk : n.kind = .forEach item ty subject body site) :
    L.Sim i (Eval.forEach ev f info item ty subject body site) (Eval.forEach ev' f' info item ty subject body site) := by
  have hs : L.Inside subject := hL.inside_own hn (by simp [Node.own, Node.children, hk])
  have hb : L.Inside body := hL.inside_own hn (by simp [Node.own, Node.children, hk])
  refine (hev.sim hf hs).bind fun v => ?_
  cases hv : v.isNull with
  | true => exact .pure _
  | false =>
    refine (hS.shapeOf hf hn hk v).bind fun shape => ?_
    cases shape with
    | some _ => exact hL.runItems (e := ⟨f, info, item, ty, body⟩) hf hb hev v
    | none =>
      obtain ⟨mode, rfl⟩ := hL.frames_eq hf
      exact .fail _

/-! ### With -/

omit hL in
theorem sequence {ns : List Node} (hns : ∀ n ∈ ns, L.Inside n) :
    L.Sim i (Eval.sequence ev f ns) (Eval.sequence ev' f' ns) := by
  induction ns with
  | nil => exact .pure _
  | cons n rest ih =>
    exact (hev.sim hf (hns n (by simp))).bind fun _ => ih fun m hm => hns m (by simp [hm])

theorem withItems {target : Node} {items : List Node} (ht : L.Inside target) (hns : ∀ n ∈ items, L.Inside n) :
    L.Sim i (Eval.withItems ev f target items) (Eval.withItems ev' f' target items) := by
  refine (hev.sim hf ht).bind fun v => ?_
  cases hv : v.isNull with
  | true =>
    obtain ⟨mode, rfl⟩ := hL.frames_eq hf
    exact .fail _
  | false => exact (sequence hev (hL.with_this hf v) hns).bind fun _ => .pure _

/-! ### Assignments -/

theorem readTarget (hS : L.Sites) (hn : L.Inside n) (ht : n.updated? = some target) :
    L.Sim i (Eval.readTarget ev f info target) (Eval.readTarget ev' f' info target) := by
  cases target with
  | name name =>
    obtain ⟨-, -, -, herr, -⟩ := hL.frames_agree hf
    simp only [Eval.readTarget, herr]
    exact hL.onStore_readName hf _ name
  | path p site => exact hS.readForUpdate hev hf hn ht

variable {register register' : Option Nat}

theorem writeTarget (hS : L.Sites) (hn : L.Inside n)
    (hr : L.SameRegister i f f' register register') (v : Value) (ht : n.target? = some target) :
    L.Sim i (Eval.writeTarget ev f info register v target) (Eval.writeTarget ev' f' info register' v target) := by
  cases target with
  | name name =>
    obtain ⟨-, -, -, herr, -⟩ := hL.frames_agree hf
    simp only [Eval.writeTarget, herr]
    exact hr.storeName _ name v false
  | path p site => exact hS.writePath hev hf hn ht v

theorem declare {name : String} {ty : Ty}
    {value : Option Node} (hv : ∀ n ∈ value, L.Inside n) (hr : L.SameRegister i f f' register register') :
    L.Sim i (Eval.declare ev f info name ty value register) (Eval.declare ev' f' info name ty value register') := by
  obtain ⟨hscope, -⟩ := hL.frames_agree hf
  have bound : ∀ v : Value, L.Bindable (.of v ty.known?) → L.Sim i
      (EvalM.stepStore (fun st => st.createIn f.scope name (.of v ty.known?) register) >>= fun _ => pure v)
      (EvalM.stepStore (fun st => st.createIn f'.scope name (.of v ty.known?) register') >>= fun _ => pure v) := by
    intro v hv
    rw [hscope]
    exact (hr.createIn _ hv).bind fun _ => .pure v
  unfold Eval.declare
  cases hty : ty.known? with
  | none =>
    rw [hty] at bound
    cases value with
    | none => exact bound _ (hL.bindable_untyped _)
    | some n => exact (hev.sim hf (hv n rfl)).bind fun v => bound v (hL.bindable_untyped v)
  | some ty =>
    rw [hty] at bound
    cases value with
    | none => exact hL.converted hf info _ ty bound
    | some n => exact (hev.sim hf (hv n rfl)).bind fun v => hL.converted hf info v ty bound

theorem assign (hS : L.Sites) (hn : L.Inside n)
    {op : Option Operator} (ht : n.target? = some target) (hu : op.isSome → n.updated? = some target)
    {value : Option Node} (hv : ∀ n ∈ value, L.Inside n) (hr : L.SameRegister i f f' register register') :
    L.Sim i (Eval.assign ev f info target op value register) (Eval.assign ev' f' info target op value register') := by
  have stored : ∀ v : Value, L.Sim i (Eval.writeTarget ev f info register v target)
      (Eval.writeTarget ev' f' info register' v target) :=
    fun v => hL.writeTarget hev hf hS hn hr v ht
  cases value with
  | none => cases op <;> exact (Sim.pure _).bind stored
  | some m =>
    cases op with
    | none => exact (hev.sim hf (hv m rfl)).bind stored
    | some op =>
      refine (hL.readTarget hev hf hS hn (hu rfl)).bind fun current => ?_
      exact (hev.sim hf (hv m rfl)).bind fun rhs => (hL.applyOperator hf info op current rhs).bind stored

theorem assignment (hS : L.Sites) (hn : L.Inside n) {op : Option Operator} {value : Option Node} {decl : Option Ty}
    (hk : n.kind = .assignment target op value decl register) (hr : L.SameRegister i f f' register register') :
    L.Sim i (Eval.assignment ev f info target op value decl register)
      (Eval.assignment ev' f' info target op value decl register') := by
  have ht : n.target? = some target := by simp [Node.target?, hk]
  have hv : ∀ m ∈ value, L.Inside m := fun m hm => hL.inside_own hn (by simp_all [Node.own, Node.children])
  unfold Eval.assignment
  split
  · exact hL.declare hev hf hv hr
  · refine hL.assign hev hf hS hn ht (fun hop => ?_) hv hr
    obtain ⟨op, rfl⟩ := Option.isSome_iff_exists.mp hop
    simp [Node.updated?, hk]

theorem increment (hS : L.Sites) (hn : L.Inside n)
    {delta : Int64} {before : Bool} (hk : n.kind = .increment target delta before) :
    L.Sim i (Eval.increment ev f info target delta before) (Eval.increment ev' f' info target delta before) := by
  have ht : n.target? = some target := by simp [Node.target?, hk]
  have hu : n.updated? = some target := by simp [Node.updated?, hk]
  refine (hL.readTarget hev hf hS hn hu).bind fun current => ?_
  refine (hL.applyOperator hf info .add current _).bind fun next => ?_
  exact (hL.writeTarget hev hf hS hn (hL.sameRegister hf none) next ht).bind fun _ => .pure _

/-! ### Calls -/

theorem call (hC : L.Crossings) {name : String} {args : List Node} (hargs : ∀ n ∈ args, L.Inside n) :
    L.Sim i (Eval.call ev f info name args) (Eval.call ev' f' info name args) := by
  obtain ⟨mode, rfl⟩ := hL.frames_eq hf
  refine (evalAll hev hf hargs).bind fun vs => .get fun j m m' hj hm => ?_
  have hlookup : m'.store.lookup? (f.inMode mode).scope name = m.store.lookup? f.scope name :=
    hL.lookup (hL.frames_mono hj hf) hm name
  have hworld : (f.inMode mode).world = f.world := rfl
  rw [hlookup]
  cases m.store.lookup? f.scope name with
  | none =>
    simp only [Frame.callReceivers_inMode]
    exact hL.onHeap _ _
  | some v =>
    cases v with
    | function ref =>
      rw [hworld]
      dsimp only
      cases hfn : f.world.functions[ref.id]? with
      | some fn => exact (hC.callFunction hev hf (Array.mem_of_getElem? hfn) info vs).mono hj
      | none => exact .fail _
    | native ref =>
      rw [hworld]
      dsimp only
      cases f.world.natives[ref.id]? with
      | some native => exact hL.onHeap _ _
      | none => exact .fail _
    | _ => exact .fail _

/-! ## Nodes -/

theorem matchPattern (hn : L.Inside n) (info : Info) (text : String) :
    L.Sim i (Eval.matchPattern ev f info n text) (Eval.matchPattern ev' f' info n text) := by
  refine (hev.sim hf hn).bind fun p => (hL.query fun h => p.text h).bind fun p => ?_
  obtain ⟨mode, rfl⟩ := hL.frames_eq hf
  cases Regex.whole p with
  | ok r => exact .pure _
  | error e => exact .fail _

/-- A node is evaluated in lockstep if its parts are. -/
theorem step (hS : L.Sites) (hC : L.Crossings) (fuel : Nat) (hn : L.Inside n) :
    L.Sim i (Eval.step ev fuel f n) (Eval.step ev' fuel f' n) := by
  have hc : ∀ m ∈ n.own, L.Inside m := fun m hm => hL.inside_own hn hm
  obtain ⟨hscope, -, -, herr, -⟩ := hL.frames_agree hf
  unfold Eval.step
  cases hk : n.kind with
  | literal v => exact .pure v
  | emptyWord => exact .pure _
  | property path site => exact hS.readPath hev hf hn hk
  | unary op a =>
    simp only [herr]
    exact (hev.sim hf (hc a (by simp [Node.own, Node.children, hk]))).bind fun v => hL.onHeap _ _
  | binary op a b =>
    refine (hev.sim hf (hc a (by simp [Node.own, Node.children, hk]))).bind fun l => ?_
    exact (hev.sim hf (hc b (by simp [Node.own, Node.children, hk]))).bind fun r => hL.applyOperator hf n.info op l r
  | and a b =>
    refine (hL.condition hev hf (hc a (by simp [Node.own, Node.children, hk]))).bind fun l => .ite Iff.rfl ?_ (.pure _)
    exact (hL.condition hev hf (hc b (by simp [Node.own, Node.children, hk]))).bind fun _ => .pure _
  | or a b =>
    refine (hL.condition hev hf (hc a (by simp [Node.own, Node.children, hk]))).bind fun l => .ite Iff.rfl (.pure _) ?_
    exact (hL.condition hev hf (hc b (by simp [Node.own, Node.children, hk]))).bind fun _ => .pure _
  | ternary a b c =>
    refine (hL.condition hev hf (hc a (by simp [Node.own, Node.children, hk]))).bind fun l => .ite Iff.rfl ?_ ?_
    · exact hev.sim hf (hc b (by simp [Node.own, Node.children, hk]))
    · exact hev.sim hf (hc c (by simp [Node.own, Node.children, hk]))
  | emptyTest a negate =>
    refine (hev.sim hf (hc a (by simp [Node.own, Node.children, hk]))).bind fun v => .get fun _ _ _ _ h => ?_
    rw [hL.heap h]
    exact .pure _
  | regexMatch a b compiled => exact hS.regexMatch hev hf hn hk
  | assignment target op value decl register => exact hL.assignment hev hf hS hn hk (hL.sameRegister hf register)
  | increment target delta before => exact hL.increment hev hf hS hn hk
  | ifChain branches otherwise =>
    refine hL.ifChain hev hf (fun m hm => hc m ?_) fun b hb => ⟨hc b.1 ?_, hc b.2 ?_⟩
    all_goals simp only [Node.own, Node.children, hk, List.mem_append, List.mem_flatMap, Option.mem_toList]
    · exact .inr hm
    · exact .inl ⟨b, hb, by simp⟩
    · exact .inl ⟨b, hb, by simp⟩
  | forEach item ty subject body site => exact hL.forEach hev hf hS hn hk
  | loop kind init cond step body =>
    have parts : ∀ m, m ∈ init ∨ m ∈ cond ∨ m ∈ step ∨ m = body → L.Inside m := fun m hm =>
      hc m ((Node.mem_own_of_loop hk).mpr hm)
    exact hL.loop (fun m hm => parts m (by tauto)) (fun m hm => parts m (by tauto)) (parts body (by tauto))
      hev hf fuel kind fun m hm => parts m (by tauto)
  | withItems target items =>
    exact hL.withItems hev hf (hc target (by simp [Node.own, Node.children, hk])) fun m hm =>
      hc m (by simp [Node.own, Node.children, hk, hm])
  | functionDecl fn =>
    simp only [hscope]
    exact (hL.createIn hf fn.name (hL.bindable_untyped _) none).bind fun _ => .pure _
  | call name args => exact hL.call hev hf hC fun m hm => hc m (by simpa [Node.own, Node.children, hk] using hm)
  | newObject creation site => exact hS.create hev hf hn hk
  | collection literal site => exact hS.buildCollection hev hf hn hk
  | group a => exact hev.sim hf (hc a (by simp [Node.own, Node.children, hk]))
  | block stmts ownScope => exact hL.block hev hf (fun m hm => hc m (by simpa [Node.own, Node.children, hk] using hm)) ownScope
  | returns value =>
    have noted : ∀ v : Value, L.Sim i (Eval.setReturn v >>= fun _ => pure v) (Eval.setReturn v >>= fun _ => pure v) :=
      fun v => (hC.setReturn hn hk v).bind fun _ => .pure v
    cases value with
    | none => exact noted .void
    | some a => exact (hev.sim hf (hc a (by simp [Node.own, Node.children, hk]))).bind noted
  | imports name v =>
    simp only [hscope]
    exact (hL.importInto hf name v).bind fun _ => .pure _
  | asserts a text =>
    simp only [herr]
    exact (hL.condition hev hf (hc a (by simp [Node.own, Node.children, hk]))).bind fun l => .ite Iff.rfl (.pure _) (.fail _)

end Local

theorem node_literal {v : Value} (h : n.kind = .literal v) (fuel : Nat) : Eval.node fuel f n = pure v := by
  cases fuel with
  | zero => simp only [Eval.node, h]
  | succ fuel => simp only [Eval.node, Eval.step, h]

namespace Lawful

variable (hL : L.Lawful)
include hL

theorem activation {x y : EvalM Value} (h : L.Sim i x y) : L.Sim i (Eval.activation x) (Eval.activation y) := by
  have resume : ∀ {j} (outer : Option Value), L.Sim j (Run.modify fun m => { m with returned := outer })
      (Run.modify fun m => { m with returned := outer }) :=
    fun _ => .modify _ _ fun _ _ _ h => hL.with_returned h _
  refine .get fun j m m' hj hm => ?_
  rw [hL.returned hm]
  refine (resume none).bind fun _ => Sim.bind ?_ fun v => ?_
  · exact (h.mono hj).onError fun _ _ _ _ h => hL.with_returned h _
  · refine .get fun k n n' _ hn => ?_
    rw [hL.returned hn]
    exact (resume _).bind fun _ => .pure _

theorem called (hev : L.Evaluators ev ev') {chain : Chain} {mode : Mode}
    (hf : L.Frames i { f with scope := chain } { f with scope := chain, mode }) {fn : Function} (hfn : L.Inside fn.body)
    (info : Info) (args : List Value) : L.Sim i (Eval.bindParams f info chain 0 fn.params args >>= fun _ =>
        if f.runtime.config.maxCallDepth < f.depth + 1 then
          Run.fail (f.errorIn info (.callDepth f.runtime.config.maxCallDepth))
        else Eval.activation (Eval.unscoped ev { f with scope := chain, depth := f.depth + 1 } fn.body))
      (Eval.bindParams (f.inMode mode) info chain 0 fn.params args >>= fun _ =>
        if f.runtime.config.maxCallDepth < f.depth + 1 then
          Run.fail (f.errorIn info (.callDepth f.runtime.config.maxCallDepth))
        else Eval.activation (Eval.unscoped ev' { f with scope := chain, mode, depth := f.depth + 1 } fn.body)) := by
  refine Sim.bind (hL.bindParams hf info _ 0 args) fun _ => ?_
  by_cases hd : f.runtime.config.maxCallDepth < f.depth + 1
  · simp only [if_pos hd]
    exact .fail _
  · simp only [if_neg hd]
    exact hL.activation (hL.unscoped hev (hL.deeper hf (Nat.le_of_not_lt hd)) hfn)

theorem callFunction (hev : L.Evaluators ev ev') (hf : L.Frames i f f') {fn : Function}
    (hfn : fn ∈ f.world.functions) {info : Info} (args : List Value) :
    L.Sim i (Eval.callFunction ev f info fn args) (Eval.callFunction ev' f' info fn args) := by
  have hbody := hL.inside_function hf hfn
  obtain ⟨mode, rfl⟩ := hL.frames_eq hf
  refine .ite Iff.rfl ?_ (.fail _)
  exact hL.inCall hf fn hfn fun j chain _ hg => hL.called hev hg hbody info args

theorem crossings : L.Crossings where
  setReturn := fun _ _ _ => .modify _ _ fun _ _ _ h => hL.with_returned h _
  callFunction := fun hev hf hfn _ args => hL.callFunction hev hf hfn args

/-! ## Programs -/

/-- Evaluations that do alike at every site do alike on every node, whatever the fuel. -/
theorem node (hS : L.Sites) (fuel : Nat) : L.Evaluators (Eval.node fuel) (Eval.node fuel) := by
  refine ⟨?_, hL.evaluates fuel⟩
  induction fuel with
  | zero =>
    intro i f f' n _ _
    unfold Eval.node
    cases n.kind with
    | literal v => exact .pure v
    | _ => exact .never
  | succ fuel ih => exact fun hf hn => hL.step ⟨ih, hL.evaluates fuel⟩ hf hS hL.crossings fuel hn

/-- Evaluations that do alike at every site do alike on every program. -/
theorem program (hS : L.Sites) (fuel : Nat) (hf : L.Frames i f f') (hn : L.Inside n) :
    L.Sim i (Eval.program fuel f n) (Eval.program fuel f' n) :=
  hL.activation (hL.unscoped (hL.node hS fuel) hf hn)

end Lawful

end PathScript.Lockstep
