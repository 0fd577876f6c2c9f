import PathScript.Proofs.Lockstep.Sites

/-! # What an activation returns

What an activation returns is noted in the machine. Only a `return` changes it:
a function that is called notes its own, and what its caller returns is put back
when it ends. -/

namespace PathScript

namespace Node

variable {n m : Node}

/-- A `return` stands in a node, and outside of the functions in it. -/
def Returns (n : Node) : Prop := ∃ m : Node, m.Within n ∧ ∃ value, m.kind = .returns value

theorem Returns.of_own (hm : m ∈ n.own) (h : m.Returns) : n.Returns := by
  obtain ⟨r, hr, hk⟩ := h
  exact ⟨r, .under hm hr, hk⟩

/-- Whether a node is no `return`. -/
def goesOn (n : Node) : Bool :=
  match n.kind with
  | .returns _ => false
  | _ => true

theorem goesOn_of_returns {value : Option Node} (hk : n.kind = .returns value) : n.goesOn = false := by
  simp only [goesOn, hk]

end Node

theorem Eval.hasReturned_apply (m : Machine) : Eval.hasReturned m = .ok m.returned.isSome m := rfl

theorem Eval.activation_apply (x : EvalM Value) (m : Machine) :
    Eval.activation x m = match x { m with returned := none } with
      | .ok v m' => .ok (m'.returned.getD v) { m' with returned := m.returned }
      | .error e m' => .error e { m' with returned := m.returned }
      | .diverged => .diverged := by
  change (x.onError (fun m' => { m' with returned := m.returned }) >>= fun v => Run.get >>= fun m' =>
    Run.modify (fun n => { n with returned := m.returned }) >>= fun _ => pure (m'.returned.getD v))
      { m with returned := none } = _
  rw [Run.bind_apply, Run.onError_apply]
  cases x { m with returned := none } <;> rfl

namespace Eval.Each

/-- The frame in which an item is bound. -/
def bindItem (e : Each) (v : Value) : EvalM Frame := do
  let v ← match e.ty with
    | some ty => EvalM.onHeap (e.frame.errorIn e.info) (e.frame.runtime.converter.convert v ty)
    | none => pure v
  let slot ← EvalM.stepStore fun st => st.newSlot (.of v e.ty)
  inScope e.frame .item [(e.item, some slot)]

theorem runItem_eq (ev : Evaluator) (e : Each) (v : Value) :
    e.runItem ev v = e.bindItem v >>= fun f => unscoped ev f e.body >>= fun _ => pure () := by
  unfold runItem bindItem
  cases e.ty with
  | none => rfl
  | some ty => simp only [bind_assoc]

end Eval.Each

/-- What the activation returns is the same after a computation that ends with a value. -/
def KeepsReturned {α : Type} (x : EvalM α) : Prop := ∀ m a m', x m = .ok a m' → m'.returned = m.returned

/-- Under this way to evaluate nodes only a `return` returns. -/
def Evaluator.Discreet (ev : Evaluator) : Prop := ∀ f n, ¬ n.Returns → KeepsReturned (ev f n)

namespace KeepsReturned

variable {α β : Type} {x y : EvalM α} {k : α → EvalM β}

/-! ## Rules -/

theorem pure (a : α) : KeepsReturned (pure a) := by
  rintro m b m' ⟨⟩
  rfl

theorem bind (hx : KeepsReturned x) (hk : ∀ a, KeepsReturned (k a)) : KeepsReturned (x >>= k) := by
  intro m b m'' h
  obtain ⟨a, m', ha, hb⟩ := Run.bind_eq_ok.mp h
  exact (hk a m' b m'' hb).trans (hx m a m' ha)

theorem fail (e : EvalError) : KeepsReturned (Run.fail e : EvalM α) := by rintro m a m' ⟨⟩

theorem never : KeepsReturned (Run.never : EvalM α) := by rintro m a m' ⟨⟩

theorem get : KeepsReturned Run.get := by
  rintro m a m' ⟨⟩
  rfl

theorem modify {g : Machine → Machine} (h : ∀ m, (g m).returned = m.returned) : KeepsReturned (Run.modify g) := by
  rintro m a m' ⟨⟩
  exact h m

theorem ite {c : Prop} [Decidable c] (hx : KeepsReturned x) (hy : KeepsReturned y) :
    KeepsReturned (if c then x else y) := by
  split
  · exact hx
  · exact hy

theorem onStore (locate : Fault → EvalError) (x : StoreM α) : KeepsReturned (EvalM.onStore locate x) := by
  intro m a m' h
  obtain ⟨st, -, rfl⟩ := EvalM.onStore_eq_ok.mp h
  rfl

theorem onHeap (locate : Fault → EvalError) (x : HeapM α) : KeepsReturned (EvalM.onHeap locate x) := onStore locate _

theorem stepStore (g : Store → α × Store) : KeepsReturned (EvalM.stepStore g) := by
  intro m a m' h
  rw [EvalM.stepStore_apply] at h
  cases h
  rfl

theorem stepAccel (g : Accelerator → α × Accelerator) : KeepsReturned (EvalM.stepAccel g) := by
  intro m a m' h
  rw [EvalM.stepAccel_apply] at h
  cases h
  rfl

theorem report (f : Frame) (info : Info) : KeepsReturned (EvalM.report f info) := by
  unfold EvalM.report
  split
  · exact .modify fun _ => rfl
  · exact .pure _

variable {ev : Evaluator} {f : Frame}

theorem inScope (kind : ScopeKind) (cells : List (String × Option SlotId)) :
    KeepsReturned (Eval.inScope f kind cells) := (stepStore _).bind fun _ => .pure _

theorem bindItem (e : Eval.Each) (v : Value) : KeepsReturned (e.bindItem v) := by
  have bound : ∀ v : Value, KeepsReturned (EvalM.stepStore (fun st => st.newSlot (.of v e.ty)) >>= fun slot =>
      Eval.inScope e.frame .item [(e.item, some slot)]) :=
    fun v => (stepStore _).bind fun _ => inScope _ _
  unfold Eval.Each.bindItem
  cases hty : e.ty with
  | none => rw [hty] at bound; exact bound v
  | some ty => rw [hty] at bound; exact (onHeap _ _).bind bound

theorem shapeOf (site : SiteId) (v : Value) : KeepsReturned (Eval.shapeOf f site v) := by
  refine .ite (.pure _) ((get.bind fun m => .pure m.accel).bind fun a => ?_)
  cases a.shapes.get? site with
  | some known => exact .pure _
  | none =>
    dsimp only
    cases IterShape.of? v with
    | some shape => exact (stepAccel _).bind fun _ => .pure _
    | none => exact .pure _

/-- An activation keeps what is returned around it, whatever happens inside. -/
theorem activation (x : EvalM Value) : KeepsReturned (Eval.activation x) := by
  intro m v m' h
  rw [Eval.activation_apply] at h
  cases hx : x { m with returned := none } with
  | ok w n => rw [hx] at h; cases h; rfl
  | error e n => rw [hx] at h; cases h
  | diverged => rw [hx] at h; cases h

end KeepsReturned

/-! ## An activation and itself -/

/-- An evaluation and itself, as long as it returns nothing; after an error that does not matter. -/
def returning : Lockstep where
  Index := Option Value
  le := Eq
  le_refl := Eq.refl
  le_trans := Eq.trans
  Alike := fun r m m' => m' = m ∧ m.returned = r
  Frames := fun _ f f' => f' = f
  error := Eq
  error_refl := Eq.refl
  strict := False
  Inside := fun n => ¬ n.Returns
  Bindable := fun _ => True
  Evaluates := Eq

namespace Returning

variable {α : Type} {x : EvalM α} {r : Option Value} {ev : Evaluator} {f : Frame}

theorem sim (hx : KeepsReturned x) : returning.Sim r x x := by
  rintro _ rfl _ m ⟨rfl, hm⟩
  cases hout : x m with
  | ok a m' => exact .ok (returning.le_refl r) ⟨rfl, (hx m a m' hout).trans hm⟩
  | error e m' => exact .error (returning.le_refl r) rfl False.elim
  | diverged => exact .diverged

theorem keepsReturned (hx : ∀ r, returning.Sim r x x) : KeepsReturned x := by
  intro m a m' hout
  have hjoined := hx m.returned _ rfl m m ⟨rfl, rfl⟩
  rw [hout] at hjoined
  cases hjoined with
  | ok le alike => exact alike.2.trans le.symm

theorem evaluators (hev : ev.Discreet) : returning.Evaluators ev ev :=
  ⟨fun {_ f f' n} hf hn => by obtain rfl : f' = f := hf; exact sim (hev f' n hn), rfl⟩

theorem isLocal : returning.Local where
  frames_mono := fun _ hf => hf
  frames_eq := fun {_ f _} hf => ⟨f.mode, hf⟩
  with_this := fun hf _ => by rw [show _ = _ from hf]; rfl
  deeper := fun hf _ => by rw [show _ = _ from hf]; rfl
  inside_own := fun hn hc h => hn (h.of_own hc)
  heap := fun hm => by rw [hm.1]
  with_heap := fun hm _ => ⟨by rw [hm.1], hm.2⟩
  returned := fun hm => by rw [hm.1]
  lookup := fun _ hm _ => by rw [hm.1]
  report := fun hf info => by rw [show _ = _ from hf]; exact sim (.report _ info)
  storeName := fun hf _ _ _ _ _ => by rw [show _ = _ from hf]; exact sim (.onStore _ _)
  bindable_untyped := fun _ => trivial
  bindable_converted := fun _ _ => trivial
  createIn := fun _ _ _ _ _ => sim (.stepStore _)
  createAt := fun _ _ _ _ _ => sim (.stepStore _)
  importInto := fun _ _ _ => sim (.stepStore _)
  inBlock := fun hf hk => by
    rw [show _ = _ from hf]
    exact (sim (.inScope _ _)).bind_from fun g j hj => hk j g g hj rfl
  inItem := fun hf _ _ _ hk => by
    rw [show _ = _ from hf]
    exact (sim (.stepStore _)).bind fun _ => (sim (.inScope _ _)).bind_from fun g j hj => hk j g g hj rfl
  inCall := fun hf _ _ hk =>
    (sim (.stepStore _)).bind_from fun scope j hj => hk j scope hj (by rw [show _ = _ from hf]; rfl)

theorem sites : returning.Sites := by
  have hsame : returning.SameMemory :=
    { frames := id, accel := fun h => by rw [h.1], note := fun _ _ _ _ h => ⟨by rw [h.1], h.2⟩ }
  exact hsame.sites_of_harmless isLocal fun _ _ _ _ h => ⟨by rw [h.1], h.2⟩

theorem callFunction (ev : Evaluator) (f : Frame) (info : Info) (fn : Function) (args : List Value) :
    KeepsReturned (Eval.callFunction ev f info fn args) := by
  refine .ite ((KeepsReturned.stepStore _).bind fun chain => ?_) (.fail _)
  have hparams : KeepsReturned (Eval.bindParams f info chain 0 fn.params args) :=
    keepsReturned fun r => isLocal.bindParams rfl info fn.params 0 args
  exact hparams.bind fun _ => .ite (.fail _) (.activation _)

theorem crossings : returning.Crossings where
  setReturn := fun hn hk _ => absurd ⟨_, .here, _, hk⟩ hn
  callFunction := fun hev hf _ _ _ => by
    rw [show _ = _ from hf, ← show _ = _ from hev.evaluates]
    exact sim (callFunction _ _ _ _ _)

end Returning

namespace KeepsReturned

variable {ev : Evaluator} {f : Frame} {n : Node}

open Returning

/-- A node without a `return` keeps what is returned, if its parts do. -/
theorem step (hev : ev.Discreet) (fuel : Nat) (hn : ¬ n.Returns) : KeepsReturned (Eval.step ev fuel f n) :=
  keepsReturned fun _ => isLocal.step (evaluators hev) rfl sites crossings fuel hn

theorem condition (hev : ev.Discreet) (hn : ¬ n.Returns) : KeepsReturned (Eval.condition ev f n) :=
  keepsReturned fun _ => isLocal.condition (evaluators hev) rfl hn

theorem goesOn (hev : ev.Discreet) {kind : LoopKind} {cond : Option Node} (hc : ∀ n ∈ cond, ¬ n.Returns) :
    KeepsReturned (Eval.goesOn ev f kind cond) :=
  keepsReturned fun _ => isLocal.goesOn (evaluators hev) rfl kind hc

theorem perform (hev : ev.Discreet) {n : Option Node} (hn : ∀ m ∈ n, ¬ m.Returns) : KeepsReturned (Eval.perform ev f n) :=
  keepsReturned fun _ => Lockstep.Local.perform (evaluators hev) rfl hn

theorem declare (hev : ev.Discreet) {value : Option Node} (hv : ∀ n ∈ value, ¬ n.Returns) (info : Info) (name : String)
    (ty : Ty) (register : Option Nat) : KeepsReturned (Eval.declare ev f info name ty value register) :=
  keepsReturned fun _ => isLocal.declare (evaluators hev) rfl hv (isLocal.sameRegister rfl register)

end KeepsReturned

end PathScript
