import PathScript.Proofs.Acceleration.History

/-! # Leaving an activation

A `return` is noted in the machine, and every statement has to look for it. Here
it is an exception, which leaves the activation at once with its value, and no
statement looks for anything.

That an evaluation does not go on shows only in what it would have done. So both
forms are given for an evaluation that is watched: something is done before each
node, whatever it is. -/

namespace PathScript

/-! ## Watching evaluation -/

/-- Something that is done before a node is evaluated. -/
abbrev Watch := Frame → Node → EvalM Unit

/-- Evaluation of nodes that is watched, with fuel. -/
def Eval.watched (watch : Watch) : Nat → Evaluator
  | 0 => fun f n => do
    watch f n
    Eval.node 0 f n
  | fuel + 1 => fun f n => do
    watch f n
    Eval.step (watched watch fuel) fuel f n

theorem Eval.watched_idle (fuel : Nat) : Eval.watched (fun _ _ => pure ()) fuel = Eval.node fuel := by
  induction fuel with
  | zero => rfl
  | succ fuel ih =>
    funext f n
    simp only [watched, ih, pure_bind]
    rfl

theorem KeepsReturned.watched_zero {watch : Watch} (hw : ∀ f n, KeepsReturned (watch f n)) (f : Frame) (n : Node) :
    KeepsReturned (Eval.watched watch 0 f n) := by
  refine (hw f n).bind fun _ => ?_
  unfold Eval.node
  split
  · exact .pure _
  · exact .never

theorem Evaluator.Discreet.watched {watch : Watch} (hw : ∀ f n, KeepsReturned (watch f n)) (fuel : Nat) :
    (Eval.watched watch fuel).Discreet := by
  induction fuel with
  | zero => exact fun f n _ => .watched_zero hw f n
  | succ fuel ih => exact fun f n hn => (hw f n).bind fun _ => .step ih fuel hn

/-! ## Evaluation that is left by a return -/

/-- A computation that can be left with the value that the activation returns. -/
abbrev ActivationM := ExceptT Value EvalM

namespace Leaving

section

variable (ev : Evaluator) (run : Frame → Node → ActivationM Value)

def statements (f : Frame) : List Node → Value → ActivationM Value
  | [], last => pure last
  | n :: rest, _ => do
    EvalM.report f n.info
    let v ← run f n
    statements f rest v

def block (f : Frame) (stmts : List Node) (ownScope : Bool) : ActivationM Value := do
  let f ← if ownScope then Eval.inScope f .block [] else pure f
  statements run f stmts .void

def unscoped (f : Frame) (n : Node) : ActivationM Value :=
  match n.kind with
  | .block stmts _ => statements run f stmts .void
  | _ => run f n

def ifChain (f : Frame) (otherwise : Option Node) : List (Node × Node) → ActivationM Value
  | [] =>
    match otherwise with
    | some n => run f n
    | none => pure .void
  | (cond, n) :: rest => do if ← Eval.condition ev f cond then run f n else ifChain f otherwise rest

def perform (f : Frame) : Option Node → ActivationM Unit
  | some n => do let _ ← run f n
  | none => pure ()

def iterate (f : Frame) (kind : LoopKind) (cond next : Option Node) (body : Node) : Nat → ActivationM Value
  | 0 => liftM (Run.never : EvalM Value)
  | fuel + 1 => do
    let _ ← run f body
    Eval.perform ev f next
    if ← Eval.goesOn ev f kind cond then iterate f kind cond next body fuel else pure .void

def loop (fuel : Nat) (f : Frame) (kind : LoopKind) (init cond next : Option Node) (body : Node) :
    ActivationM Value := do
  let f ← if kind = .forLoop then Eval.inScope f .block [] else pure f
  perform run f init
  if kind = .doWhile || kind = .doUntil then iterate ev run f kind cond next body fuel
  else if ← Eval.goesOn ev f kind cond then iterate ev run f kind cond next body fuel
  else pure .void

def runItem (e : Eval.Each) (v : Value) : ActivationM Unit := do
  let f ← e.bindItem v
  let _ ← unscoped run f e.body

def overItems (e : Eval.Each) : List Value → ActivationM Value
  | [] => pure .void
  | v :: rest => do
    runItem run e v
    overItems e rest

/-- The items of a loop, as they are when it starts. -/
def items (h : Heap) : Value → List Value
  | .int n => (List.range' 1 n.toInt.toNat).map .ofNat
  | v => Eval.items h v

def forEach (f : Frame) (info : Info) (item : String) (ty : Option Ty) (subject body : Node) (site : SiteId) :
    ActivationM Value := do
  let v ← ev f subject
  if v.isNull then pure .void
  else
    match ← Eval.shapeOf f site v with
    | some _ => overItems run ⟨f, info, item, ty, body⟩ (items (← (Run.get : EvalM Machine)).store.heap v)
    | none => (Run.fail (f.errorIn info (.undefined "foreach" v.typeOf.name "iteration")) : EvalM Value)

/-- A node, in terms of its parts. Only what can have a `return` in it differs. -/
def step (fuel : Nat) (f : Frame) (n : Node) : ActivationM Value :=
  match n.kind with
  | .block stmts ownScope => block run f stmts ownScope
  | .ifChain branches otherwise => ifChain ev run f otherwise branches
  | .loop kind init cond next body => loop ev run fuel f kind init cond next body
  | .forEach item ty subject body site => forEach ev run f n.info item ty subject body site
  | .returns value => do
    let v ← match value with
      | some n => ev f n
      | none => pure .void
    throw v
  | _ => liftM (Eval.step ev fuel f n)

end

/-- A node, watched and with fuel. -/
def node (watch : Watch) : Nat → Frame → Node → ActivationM Value
  | 0 => fun f n => liftM (Eval.watched watch 0 f n)
  | fuel + 1 => fun f n => do
    watch f n
    step (Eval.watched watch fuel) (node watch fuel) fuel f n

/-- Runs an activation to its end or up to the `return` that leaves it. -/
def activation (x : ActivationM Value) : EvalM Value := do
  let outer := (← Run.get).returned
  Run.modify fun m => { m with returned := none }
  let ended ← x.run.onError fun m => { m with returned := outer }
  Run.modify fun m => { m with returned := outer }
  match ended with
  | .ok v => pure v
  | .error v => pure v

def program (watch : Watch) (fuel : Nat) (f : Frame) (root : Node) : EvalM Value :=
  activation (unscoped (node watch fuel) f root)

def callFunction (watch : Watch) (fuel : Nat) (f : Frame) (info : Info) (fn : Function) (args : List Value) :
    EvalM Value := do
  if args.length = fn.params.length then do
    let chain ← EvalM.stepStore fun st => st.push .indexed (fn.registers.map fun name => (name, none)) f.root
    Eval.bindParams f info chain 0 fn.params args
    if f.runtime.config.maxCallDepth < f.depth + 1 then
      Run.fail (f.errorIn info (.callDepth f.runtime.config.maxCallDepth))
    else activation (unscoped (node watch fuel) { f with scope := chain, depth := f.depth + 1 } fn.body)
  else Run.fail (f.errorIn info (.arity fn.name fn.params.length args.length))

/-! ## Endings -/

section

variable {α β : Type} {x : EvalM α} {y : ActivationM α} {k : α → EvalM β} {k' : α → ActivationM β}

theorem run_liftM (x : EvalM α) (m : Machine) : (liftM x : ActivationM α).run m = match x m with
    | .ok a m' => .ok (.ok a) m'
    | .error e m' => .error e m'
    | .diverged => .diverged := by
  change (x >>= fun a => pure (Except.ok a)) m = _
  rw [Run.bind_apply]
  cases x m <;> rfl

theorem run_bind (y : ActivationM α) (k : α → ActivationM β) (m : Machine) : (y >>= k).run m = match y.run m with
    | .ok (.ok a) m' => (k a).run m'
    | .ok (.error w) m' => .ok (.error w) m'
    | .error e m' => .error e m'
    | .diverged => .diverged := by
  rw [ExceptT.run_bind, Run.bind_apply]
  cases y.run m with
  | ok a m' => cases a <;> rfl
  | error e m' => rfl
  | diverged => rfl

theorem activation_apply (y : ActivationM Value) (m : Machine) :
    activation y m = match y.run { m with returned := none } with
      | .ok (.ok v) m' => .ok v { m' with returned := m.returned }
      | .ok (.error v) m' => .ok v { m' with returned := m.returned }
      | .error e m' => .error e { m' with returned := m.returned }
      | .diverged => .diverged := by
  change (y.run.onError (fun m' => { m' with returned := m.returned }) >>= fun ended =>
    Run.modify (fun n => { n with returned := m.returned }) >>= fun _ => match ended with
      | .ok v => pure v
      | .error v => pure v) { m with returned := none } = _
  rw [Run.bind_apply, Run.onError_apply]
  cases y.run { m with returned := none } with
  | ok ended m' => cases ended <;> rfl
  | error e m' => rfl
  | diverged => rfl

/-- How an evaluation that notes a return ends, next to one that is left by it. Only the noted value may differ from
the machine of the other, and what the rest of a statement gives does not matter then. -/
inductive Ends : Outcome Machine EvalError α → Outcome Machine EvalError (Except Value α) → Prop where
  | on {a : α} {m : Machine} (returned : m.returned = none) : Ends (.ok a m) (.ok (.ok a) m)
  | left {a : α} {w : Value} {m : Machine} (returned : m.returned = none) :
      Ends (.ok a { m with returned := some w }) (.ok (.error w) m)
  | error {e : EvalError} {m : Machine} : Ends (.error e m) (.error e m)
  | diverged : Ends .diverged .diverged

/-- Evaluations that end alike wherever the activation has not returned. -/
def Leads (x : EvalM α) (y : ActivationM α) : Prop := ∀ m, m.returned = none → Ends (x m) (y.run m)

namespace Leads

theorem pure (a : α) : Leads (pure a) (pure a) := fun _ hm => .on hm

theorem lift (hx : KeepsReturned x) : Leads x (liftM x) := by
  intro m hm
  rw [run_liftM]
  cases h : x m with
  | ok a m' => exact .on ((hx m a m' h).trans hm)
  | error e m' => exact .error
  | diverged => exact .diverged

theorem ite {c : Prop} [Decidable c] {x' : EvalM α} {y' : ActivationM α} (h : Leads x y) (h' : Leads x' y') :
    Leads (if c then x else x') (if c then y else y') := by
  split
  · exact h
  · exact h'

/-- What follows a computation that cannot return does not have to look for a return. -/
theorem bind (h : Leads x y) (hx : KeepsReturned x) (hk : ∀ a, Leads (k a) (k' a)) : Leads (x >>= k) (y >>= k') := by
  intro m hm
  have hend := h m hm
  have hkept : ∀ a m', x m = .ok a m' → m'.returned = none := fun a m' ha => (hx m a m' ha).trans hm
  rw [Run.bind_apply, run_bind]
  generalize x m = o at hend hkept
  generalize y.run m = r at hend
  cases hend with
  | on returned => exact hk _ _ returned
  | left returned => cases hkept _ _ rfl
  | error => exact .error
  | diverged => exact .diverged

/-- What follows a computation that can return looks for a return. -/
theorem polled (h : Leads x y) (given : α → β) (hk : ∀ a, Leads (k a) (k' a)) :
    Leads (x >>= fun a => Eval.hasReturned >>= fun b => if b then Pure.pure (given a) else k a) (y >>= k') := by
  intro m hm
  have hend := h m hm
  rw [Run.bind_apply, run_bind]
  generalize x m = o at hend
  generalize y.run m = r at hend
  cases hend with
  | @on a m' returned =>
    dsimp only
    rw [Run.bind_ok (Eval.hasReturned_apply m'), returned]
    exact hk a m' returned
  | left returned => exact .left returned
  | error => exact .error
  | diverged => exact .diverged

theorem map (h : Leads x y) (g : α → β) : Leads (x >>= fun a => Pure.pure (g a)) (y >>= fun a => Pure.pure (g a)) := by
  intro m hm
  have hend := h m hm
  rw [Run.bind_apply, run_bind]
  generalize x m = o at hend
  generalize y.run m = r at hend
  cases hend with
  | on returned => exact .on returned
  | left returned => exact .left returned
  | error => exact .error
  | diverged => exact .diverged

theorem after (hx : KeepsReturned x) (hk : ∀ a, Leads (k a) (k' a)) : Leads (x >>= k) (liftM x >>= k') :=
  (lift hx).bind hx hk

theorem activation {x : EvalM Value} {y : ActivationM Value} (h : Leads x y) :
    Eval.activation x = Leaving.activation y := by
  funext m
  have hend := h { m with returned := none } rfl
  rw [Eval.activation_apply, activation_apply]
  generalize x { m with returned := none } = o at hend
  generalize y.run { m with returned := none } = r at hend
  cases hend with
  | on returned => simp [returned]
  | left returned => simp
  | error => rfl
  | diverged => rfl

end Leads

end

/-! ## Statements -/

section Statements

variable {ev : Evaluator} {run : Frame → Node → ActivationM Value} {P : Node → Prop} {f : Frame}

/-- Under these two ways to evaluate nodes, all that a predicate holds of end alike. -/
def Agree (P : Node → Prop) (ev : Evaluator) (run : Frame → Node → ActivationM Value) : Prop :=
  ∀ f n, P n → Leads (ev f n) (run f n)

theorem leads_statements (h : Agree P ev run) {ns : List Node} (hns : ∀ n ∈ ns, P n) (last : Value) :
    Leads (Eval.statements ev f ns last) (statements run f ns last) := by
  induction ns generalizing last with
  | nil => exact .pure last
  | cons n rest ih =>
    refine .after (.report f n.info) fun _ => (h f n (hns n (by simp))).polled id fun v => ?_
    exact ih (fun m hm => hns m (by simp [hm])) v

theorem leads_block (h : Agree P ev run) {ns : List Node} (hns : ∀ n ∈ ns, P n) (ownScope : Bool) :
    Leads (Eval.block ev f ns ownScope) (block run f ns ownScope) := by
  cases ownScope with
  | true => exact .after (.inScope _ _) fun _ => leads_statements h hns _
  | false => exact leads_statements h hns _

theorem leads_ifChain (hev : ev.Discreet) (h : Agree P ev run) {otherwise : Option Node} (ho : ∀ n ∈ otherwise, P n)
    {branches : List (Node × Node)} (hb : ∀ b ∈ branches, ¬ b.1.Returns ∧ P b.2) :
    Leads (Eval.ifChain ev f otherwise branches) (ifChain ev run f otherwise branches) := by
  induction branches with
  | nil =>
    cases otherwise with
    | none => exact .pure _
    | some n => exact h f n (ho n rfl)
  | cons b rest ih =>
    obtain ⟨hcond, hbody⟩ := hb b (by simp)
    refine .after (.condition hev hcond) fun _ => .ite (h f b.2 hbody) ?_
    exact ih fun c hc => hb c (by simp [hc])

section Loops

variable {kind : LoopKind} {init cond next : Option Node} {body : Node}

theorem leads_iterate (hev : ev.Discreet) (h : Agree P ev run) (hc : ∀ n ∈ cond, ¬ n.Returns)
    (hn : ∀ n ∈ next, ¬ n.Returns) (hb : P body) (fuel : Nat) :
    Leads (Eval.iterate ev f kind cond next body fuel) (iterate ev run f kind cond next body fuel) := by
  induction fuel with
  | zero => exact .lift .never
  | succ fuel ih =>
    refine (h f body hb).polled (fun _ => Value.void) fun _ => .after (.perform hev hn) fun _ => ?_
    exact .after (.goesOn hev hc) fun _ => .ite ih (.pure _)

/-- The start of a loop is the one place where nothing looks for a return. -/
theorem leads_loop (hev : ev.Discreet) (h : Agree P ev run) (hi : ∀ n ∈ init, P n ∧ ¬ n.Returns)
    (hc : ∀ n ∈ cond, ¬ n.Returns) (hn : ∀ n ∈ next, ¬ n.Returns) (hb : P body) (fuel : Nat) :
    Leads (Eval.loop ev fuel f kind init cond next body) (loop ev run fuel f kind init cond next body) := by
  have hinit : ∀ g, Leads (Eval.perform ev g init) (perform run g init) := by
    intro g
    cases init with
    | none => exact .pure _
    | some n => exact (h g n (hi n rfl).1).map fun _ => ()
  have hturns : ∀ g, Leads (Eval.turns ev fuel g kind cond next body)
      (if kind = .doWhile || kind = .doUntil then iterate ev run g kind cond next body fuel
        else do if ← Eval.goesOn ev g kind cond then iterate ev run g kind cond next body fuel else pure .void) := by
    intro g
    have hiterate : Leads (Eval.iterate ev g kind cond next body fuel) (iterate ev run g kind cond next body fuel) :=
      leads_iterate hev h hc hn hb fuel
    exact .ite hiterate (.after (.goesOn hev hc) fun _ => .ite hiterate (.pure _))
  have hstarted : ∀ g, Leads (Eval.perform ev g init >>= fun _ => Eval.turns ev fuel g kind cond next body) _ :=
    fun g => (hinit g).bind (.perform hev fun n hn => (hi n hn).2) fun _ => hturns g
  unfold Eval.loop loop
  split
  · exact .after (.inScope _ _) hstarted
  · exact hstarted f

end Loops

/-! ## Items -/

section Items

variable (hP : ∀ {n m}, P n → m ∈ n.own → P m) {e : Eval.Each}
include hP

theorem leads_unscoped (h : Agree P ev run) {n : Node} (hn : P n) : Leads (Eval.unscoped ev f n) (unscoped run f n) := by
  obtain ⟨info, kind⟩ := n
  cases kind with
  | block stmts own => exact leads_statements h (fun m hm => hP hn hm) _
  | _ => exact h f _ hn

theorem leads_runItem (h : Agree P ev run) (hb : P e.body) (v : Value) : Leads (e.runItem ev v) (runItem run e v) := by
  rw [Eval.Each.runItem_eq]
  exact .after (.bindItem e v) fun g => (leads_unscoped hP h hb).map fun _ => ()

theorem leads_overItems (h : Agree P ev run) (hb : P e.body) (vs : List Value) :
    Leads (e.overItems ev vs) (overItems run e vs) := by
  induction vs with
  | nil => exact .pure _
  | cons v rest ih => exact (leads_runItem hP h hb v).polled (fun _ => Value.void) fun _ => ih

theorem leads_overRange (h : Agree P ev run) (hb : P e.body) {n left : Nat} (hle : left ≤ n) :
    Leads (e.overRange ev n left) (overItems run e ((List.range' (n - left + 1) left).map .ofNat)) := by
  induction left with
  | zero => exact .pure _
  | succ left ih =>
    have hfirst : n - (left + 1) + 1 = n - left := by omega
    rw [hfirst, List.range'_succ]
    exact (leads_runItem hP h hb _).polled (fun _ => Value.void) fun _ => ih (by omega)

theorem leads_forEach (hev : ev.Discreet) (h : Agree P ev run) {subject body : Node} (hs : ¬ subject.Returns)
    (hb : P body) (info : Info) (item : String) (ty : Option Ty) (site : SiteId) :
    Leads (Eval.forEach ev f info item ty subject body site) (forEach ev run f info item ty subject body site) := by
  refine .after (hev f subject hs) fun v => .ite (.pure _) (.after (.shapeOf site v) fun shape => ?_)
  cases shape with
  | none => exact .lift (.fail _)
  | some _ =>
    cases v with
    | int n =>
      have hrange := leads_overRange hP (e := ⟨f, info, item, ty, body⟩) h hb (Nat.le_refl n.toInt.toNat)
      rw [Nat.sub_self] at hrange
      -- The numbers of a range do not depend on the machine that it starts from.
      intro m hm
      exact hrange m hm
    | _ => exact .after .get fun m => leads_overItems hP h hb _

end Items

end Statements

/-! ## Nodes and activations -/

end Leaving

/-- No `for` of the activation starts with a statement that returns. -/
def Node.Orderly (n : Node) : Prop :=
  ∀ m : Node, m.Within n → ∀ kind init cond next body, m.kind = .loop kind (some init) cond next body → ¬ init.Returns

theorem Node.Orderly.own {n m : Node} (h : n.Orderly) (hm : m ∈ n.own) : m.Orderly :=
  fun l hl => h l (.under hm hl)

/-- Whether a node is no loop that starts with a statement that returns, or that is deeper than a number. -/
def Node.startsOn (depth : Nat) (n : Node) : Bool :=
  match n.kind with
  | .loop _ (some init) _ _ _ => init.holdsWithin goesOn depth
  | _ => true

theorem Node.orderly_of_holdsWithin {n : Node} {depth : Nat} (h : n.holdsWithin (startsOn depth) depth = true) :
    n.Orderly := by
  rintro m hm kind init cond next body hk ⟨r, hr, value, hreturns⟩
  have hstarts := of_holdsWithin h hm.occurs
  rw [startsOn, hk] at hstarts
  have hgoes := of_holdsWithin hstarts hr.occurs
  rw [goesOn_of_returns hreturns] at hgoes
  cases hgoes

namespace Leaving

variable {typed : Bool} {ev : Evaluator} {run : Frame → Node → ActivationM Value} {f : Frame} {n : Node}

/-- A statement of an activation in which no `for` starts with a return. -/
structure Proper (typed : Bool) (n : Node) : Prop where
  statement : IsStatement typed n
  orderly : n.Orderly

theorem Proper.own {n m : Node} (h : Proper typed n) (hm : m ∈ n.own) : Proper typed m :=
  ⟨h.statement.child (Node.own_subset_children hm), h.orderly.own hm⟩

theorem leads_return (v : Value) : Leads (Eval.setReturn v >>= fun _ => pure v) (throw v) := fun _ hm => .left hm

theorem leads_step (hev : ev.Discreet) (h : Agree (Proper typed) ev run) (fuel : Nat) (hn : Proper typed n) :
    Leads (Eval.step ev fuel f n) (step ev run fuel f n) := by
  obtain ⟨hstatement, horderly⟩ := hn
  have hproper : ∀ m ∈ n.own, Proper typed m := fun m hm => Proper.own ⟨hstatement, horderly⟩ hm
  cases hstatement with
  | expression hexpr =>
    have hkeeps : KeepsReturned (Eval.step ev fuel f n) := .step hev fuel hexpr.not_returns
    cases hexpr <;> exact .lift hkeeps
  | @declaration i name value ty register source =>
    have hkeeps : KeepsReturned (Eval.declare ev f i name ty value register) :=
      .declare hev (fun m hm => (source m hm).not_returns) _ _ _ _
    exact .lift hkeeps
  | ifChain conds bodies last =>
    refine leads_ifChain hev h (fun m hm => hproper m ?_) fun b hb => ⟨(conds b hb).not_returns, hproper b.2 ?_⟩
    · exact List.mem_append_right _ (Option.mem_toList.mpr hm)
    · exact List.mem_append_left _ (List.mem_flatMap.mpr ⟨b, hb, by simp⟩)
  | forEach items each =>
    exact leads_forEach Proper.own hev h items.not_returns (hproper _ (by simp [Node.own, Node.children])) _ _ _ _
  | @loop i kind init cond next body start test later each =>
    refine leads_loop hev h (fun m hm => ⟨hproper m ((Node.mem_own_of_loop rfl).mpr (.inl hm)), ?_⟩)
      (fun m hm => (test m hm).not_returns) (fun m hm => (later m hm).not_returns)
      (hproper body ((Node.mem_own_of_loop rfl).mpr (by simp))) fuel
    cases hm
    exact horderly _ .here kind m cond next body rfl
  | functionDecl => exact .lift ((KeepsReturned.stepStore _).bind fun _ => .pure _)
  | block => exact leads_block h hproper _
  | @returns i value source =>
    cases value with
    | none => exact leads_return .void
    | some a => exact .after (hev f a (source a rfl).not_returns) leads_return
  | imports => exact .lift ((KeepsReturned.stepStore _).bind fun _ => .pure _)
  | asserts test =>
    exact .lift ((KeepsReturned.condition hev test.not_returns).bind fun _ => .ite (.pure _) (.fail _))

theorem agree_watched {watch : Watch} (hw : ∀ f n, KeepsReturned (watch f n)) (fuel : Nat) :
    Agree (Proper typed) (Eval.watched watch fuel) (node watch fuel) := by
  induction fuel with
  | zero => exact fun f n _ => .lift (.watched_zero hw f n)
  | succ fuel ih => exact fun f n hn => .after (hw f n) fun _ => leads_step (.watched hw fuel) ih fuel hn

theorem callFunction_eq {watch : Watch} {fuel : Nat}
    (h : Agree (Proper typed) (Eval.watched watch fuel) (node watch fuel)) {fn : Function} (hfn : Proper typed fn.body)
    (info : Info) (args : List Value) :
    Eval.callFunction (Eval.watched watch fuel) f info fn args = callFunction watch fuel f info fn args := by
  have hactivation : ∀ g : Frame, Eval.activation (Eval.unscoped (Eval.watched watch fuel) g fn.body) =
      activation (unscoped (node watch fuel) g fn.body) :=
    fun g => (leads_unscoped Proper.own h hfn).activation
  simp only [Eval.callFunction, callFunction, hactivation]

end Leaving

/-- `return` ends the activation. Evaluation of a compiled program, and of a call of one of its functions, is the one that
a `return` leaves at once with its value, if no `for` starts with a `return`. They do the same also if something is done
before each node, so no node is evaluated behind a `return`. -/
theorem return_leaves_activation {env : Compile.Env} {site function : Nat} {c : Compiled Node}
    (h : compileProgram env site function = .ok c) (watch : Watch) (hw : ∀ f n, KeepsReturned (watch f n)) (fuel : Nat)
    (f : Frame) : (c.tree.Orderly → Eval.activation (Eval.unscoped (Eval.watched watch fuel) f c.tree) =
      Leaving.program watch fuel f c.tree) ∧ (∀ fn ∈ c.functions, fn.body.Orderly → ∀ info args,
      Eval.callFunction (Eval.watched watch fuel) f info fn args = Leaving.callFunction watch fuel f info fn args) ∧
    Eval.watched (fun _ _ => pure ()) fuel = Eval.node fuel := by
  obtain ⟨htree, hfunctions⟩ := statement_of_compileProgram h
  have hagree : Leaving.Agree (Leaving.Proper env.options.verifies) (Eval.watched watch fuel) (Leaving.node watch fuel) :=
    Leaving.agree_watched hw fuel
  refine ⟨fun horderly => ?_, fun fn hfn horderly info args => ?_, Eval.watched_idle fuel⟩
  · exact (Leaving.leads_unscoped Leaving.Proper.own hagree ⟨htree, horderly⟩).activation
  · exact Leaving.callFunction_eq hagree ⟨hfunctions fn hfn, horderly⟩ info args

/-- A function is left from a loop over items, for each of the calls that a program makes before it is left from a loop
itself. -/
theorem return_leaves_activation_nested :
    let source := "def f(n) \x7b foreach (x : n) \x7b if (x * x > n) \x7b return x \x7d \x7d \x7d " ++
      "for (int i = 1; ; i += 1) \x7b if (f(i) == 3) \x7b return i \x7d \x7d"
    let watch : Watch := fun f n => EvalM.report f n.info
    ∃ c, compileProgram ⟨source.toList, .standard, .standard, .standard⟩ 0 0 = .ok c ∧ c.tree.Orderly ∧
      (∀ f, Eval.activation (Eval.unscoped (Eval.watched watch 40) f c.tree) = Leaving.program watch 40 f c.tree) ∧
      (∃ fn ∈ c.functions, fn.body.Orderly ∧ ∀ f info args,
        Eval.callFunction (Eval.watched watch 40) f info fn args = Leaving.callFunction watch 40 f info fn args) ∧
      let e : Engine := Engine.adopt c default
      ∃ m, Eval.program 40 (e.frameOf (e.runtime .standard) .null .null none .interpreted false) c.tree
        (e.started (e.runtime .standard) none).machine = .ok (.int 4) m := by
  intro source watch
  let frame (e : Engine) : Frame := e.frameOf (e.runtime .standard) .null .null none .interpreted false
  let machine (e : Engine) : Machine := (e.started (e.runtime .standard) none).machine
  have h : (compileProgram ⟨source.toList, .standard, .standard, .standard⟩ 0 0).toOption.any (fun c =>
      let e : Engine := Engine.adopt c default
      c.tree.holdsWithin (Node.startsOn 20) 20 &&
      (c.functions.any fun fn => fn.body.holdsWithin (Node.startsOn 20) 20) &&
      (Eval.program 40 (frame e) c.tree (machine e)).okAnd fun v _ => decide (v = .int 4)) = true := by
    decide +kernel
  obtain ⟨c, hc, h⟩ := exists_ok_of_any h
  obtain ⟨h, hprogram⟩ := (Bool.and_eq_true _ _).mp h
  obtain ⟨htree, hfunction⟩ := (Bool.and_eq_true _ _).mp h
  obtain ⟨fn, hfn, hbody⟩ := List.any_eq_true.mp hfunction
  obtain ⟨v, m, hprogram, hv⟩ := Outcome.okAnd_iff.mp hprogram
  cases of_decide_eq_true hv
  have leaves := return_leaves_activation hc watch (fun f n => .report f n.info) 40
  have horderly := Node.orderly_of_holdsWithin htree
  have hfunctionOrderly := Node.orderly_of_holdsWithin hbody
  exact ⟨c, hc, horderly, fun f => (leaves f).1 horderly,
    ⟨fn, hfn, hfunctionOrderly, fun f => (leaves f).2.1 fn hfn hfunctionOrderly⟩, m, hprogram⟩

/-- At the start of a `for` nothing looks for a return: the loop goes on, and a later `return` takes the place of the
first one. -/
theorem return_overtaken_in_loop :
    let source := "for (return 1; true; ) \x7b return 2 \x7d"
    let e : Engine := default
    let f : Frame := e.frameOf (e.runtime .standard) .null .null none .interpreted false
    let m : Machine := (e.started (e.runtime .standard) none).machine
    ∃ c, compileProgram ⟨source.toList, .standard, .standard, .standard⟩ 0 0 = .ok c ∧
      (∃ m', Eval.program 20 f c.tree m = .ok (.int 2) m') ∧
      ∃ m', Leaving.program (fun _ _ => pure ()) 20 f c.tree m = .ok (.int 1) m' := by
  intro source e f m
  have h : (compileProgram ⟨source.toList, .standard, .standard, .standard⟩ 0 0).toOption.any (fun c =>
      ((Eval.program 20 f c.tree m).okAnd fun v _ => decide (v = .int 2)) &&
      (Leaving.program (fun _ _ => pure ()) 20 f c.tree m).okAnd fun v _ => decide (v = .int 1)) = true := by
    decide +kernel
  obtain ⟨c, hc, h⟩ := exists_ok_of_any h
  obtain ⟨hnoted, hleft⟩ := (Bool.and_eq_true _ _).mp h
  obtain ⟨v, m₁, hnoted, hv⟩ := Outcome.okAnd_iff.mp hnoted
  obtain ⟨w, m₂, hleft, hw⟩ := Outcome.okAnd_iff.mp hleft
  cases of_decide_eq_true hv
  cases of_decide_eq_true hw
  exact ⟨c, hc, ⟨m₁, hnoted⟩, m₂, hleft⟩

end PathScript
