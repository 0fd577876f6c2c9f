import PathScript.Proofs.Promise

/-! # Statements and their promises

The static type of a block is that of its last statement, and a program gives
the value of that statement or of a `return`. So along with what a statement
gives, what the activation has returned is followed: it is what the type of the
program promises, if every `return` has that type. -/

namespace PathScript

section Promised

variable {asked : Node → Prop} {typed : Bool} {T : Ty} {α β : Type}

/-! ## Returned values -/

/-- If the activation has returned, it has returned what a static type promises. -/
def Machine.ReturnMeets (T : Ty) (m : Machine) : Prop := ∀ w ∈ m.returned, w.Meets T

/-- What is returned goes on to be what a static type promises, and something holds of a value that is not the rest of a
statement behind a `return`. -/
def Honest (T : Ty) (x : EvalM α) (P : α → Prop) : Prop :=
  ∀ m a m', m.ReturnMeets T → x m = .ok a m' → m'.ReturnMeets T ∧ (m'.returned = none → P a)

namespace Honest

variable {x y : EvalM α} {k : α → EvalM β} {P Q : α → Prop} {R : β → Prop}

theorem of_keeps (hx : KeepsReturned x) (hP : ∀ m a m', x m = .ok a m' → P a) : Honest T x P := by
  intro m a m' hm h
  refine ⟨?_, fun _ => hP m a m' h⟩
  unfold Machine.ReturnMeets
  rw [hx m a m' h]
  exact hm

theorem pure {a : α} (h : P a) : Honest T (pure a) P := .of_keeps (.pure a) fun _ _ _ heq => by cases heq; exact h

theorem bind (hx : Honest T x P) (hk : ∀ a, Honest T (k a) R) : Honest T (x >>= k) R := by
  intro m b m'' hm h
  obtain ⟨a, m', ha, hb⟩ := Run.bind_eq_ok.mp h
  exact hk a m' b m'' (hx m a m' hm ha).1 hb

theorem after (hx : KeepsReturned x) (hP : ∀ m a m', x m = .ok a m' → P a) (hk : ∀ a, P a → Honest T (k a) R) :
    Honest T (x >>= k) R := by
  intro m b m'' hm h
  obtain ⟨a, m', ha, hb⟩ := Run.bind_eq_ok.mp h
  exact hk a (hP m a m' ha) m' b m'' (of_keeps hx hP m a m' hm ha).1 hb

theorem next (hx : KeepsReturned x) (hk : ∀ a, Honest T (k a) R) : Honest T (x >>= k) R :=
  after (P := fun _ => True) hx (fun _ _ _ _ => trivial) fun a _ => hk a

theorem ite {c : Prop} [Decidable c] (hx : Honest T x P) (hy : Honest T y P) : Honest T (if c then x else y) P := by
  split
  · exact hx
  · exact hy

theorem imp (hx : Honest T x P) (h : ∀ a, P a → Q a) : Honest T x Q := fun m a m' hm heq =>
  ⟨(hx m a m' hm heq).1, fun hnone => h a ((hx m a m' hm heq).2 hnone)⟩

theorem polled (hx : Honest T x P) (given : α → β) (hk : ∀ a, P a → Honest T (k a) R) :
    Honest T (x >>= fun a => Eval.hasReturned >>= fun b => if b then Pure.pure (given a) else k a) R := by
  intro m b m'' hm h
  obtain ⟨a, m', ha, hrest⟩ := Run.bind_eq_ok.mp h
  obtain ⟨hmeets, hvalue⟩ := hx m a m' hm ha
  rw [Run.bind_ok (Eval.hasReturned_apply m')] at hrest
  cases hreturned : m'.returned with
  | none =>
    rw [hreturned] at hrest
    exact hk a (hvalue hreturned) m' b m'' hmeets hrest
  | some w =>
    rw [hreturned] at hrest
    cases hrest
    refine ⟨hmeets, fun hnone => ?_⟩
    rw [hreturned] at hnone
    cases hnone

end Honest

/-- What a node is to give, if the places that its static type rests on keep their promises. -/
def Node.Promises (asked : Node → Prop) (n : Node) (v : Value) : Prop :=
  (∀ p, p.isPlace = true → p.RestsOn n → asked p) → v.Meets n.egress

/-- From what the types of other nodes rest on, if that of a node is found from them. -/
theorem Node.Promises.of_base {n c : Node} {v : Value} (h : c.Promises asked v) (hb : c ∈ n.bases)
    (hty : n.egress.isKnown = true → n.egress = c.egress) : n.Promises asked v := fun hasked hknown =>
  (h fun p hp hr => hasked p hp (.under hknown hb hr)).cast (hty hknown) hknown

/-- A frame of interpreted evaluation, with a converter that gives what it is asked for. -/
structure Frame.Plain (f : Frame) : Prop where
  mode : f.mode = .interpreted
  converter : f.runtime.converter.Typed

/-- A statement of an activation whose returns all have one static type, and rest on places that keep their promises. -/
structure Node.Faithfully (typed : Bool) (asked : Node → Prop) (T : Ty) (n : Node) : Prop where
  statement : IsStatement typed n
  returns : ∀ r, r.Within n → ∀ value, r.kind = .returns value →
    r.egress = T ∧ ∀ p, p.isPlace = true → p.RestsOn r → asked p

theorem Node.Faithfully.own {n m : Node} (h : n.Faithfully typed asked T) (hm : m ∈ n.own) : m.Faithfully typed asked T :=
  ⟨h.statement.child (Node.own_subset_children hm), fun r hr => h.returns r (.under hm hr)⟩

/-- A way to evaluate nodes under which statements give what they promise. -/
structure Evaluator.Keeps (typed : Bool) (asked : Node → Prop) (T : Ty) (ev : Evaluator) : Prop where
  discreet : ev.Discreet
  expression : ∀ {f n}, f.Plain → IsExpression typed n → ∀ m v m', ev f n m = .ok v m' → n.Promises asked v
  statement : ∀ {f n}, f.Plain → n.Faithfully typed asked T → Honest T (ev f n) (n.Promises asked)

theorem Frame.Plain.inScope {f g : Frame} (hf : f.Plain) {kind : ScopeKind} {cells : List (String × Option SlotId)}
    {m m' : Machine} (h : Eval.inScope f kind cells m = .ok g m') : g.Plain := by
  obtain ⟨chain, _, -, h⟩ := Run.bind_eq_ok.mp h
  cases h
  exact ⟨hf.mode, hf.converter⟩

theorem Frame.Plain.bindItem {e : Eval.Each} (hf : e.frame.Plain) {v : Value} {g : Frame} {m m' : Machine}
    (h : e.bindItem v m = .ok g m') : g.Plain := by
  have bound : ∀ {v : Value} {m : Machine}, (EvalM.stepStore (fun st => st.newSlot (.of v e.ty)) >>= fun slot =>
      Eval.inScope e.frame .item [(e.item, some slot)]) m = .ok g m' → g.Plain := by
    intro v m h
    obtain ⟨slot, _, -, h⟩ := Run.bind_eq_ok.mp h
    exact hf.inScope h
  unfold Eval.Each.bindItem at h
  cases hty : e.ty with
  | none => rw [hty] at h bound; exact bound h
  | some ty =>
    rw [hty] at h bound
    obtain ⟨w, _, -, h⟩ := Run.bind_eq_ok.mp h
    exact bound h

section Statements

variable {ev : Evaluator} {f : Frame} (hev : ev.Keeps typed asked T)
include hev

theorem honest_statements (hf : f.Plain) {ns : List Node} (hns : ∀ n ∈ ns, n.Faithfully typed asked T) {last : Value}
    {P : Value → Prop} (hlast : ns = [] → P last) (hP : ∀ n v, ns.getLast? = some n → n.Promises asked v → P v) :
    Honest T (Eval.statements ev f ns last) P := by
  induction ns generalizing last with
  | nil => exact .pure (hlast rfl)
  | cons n rest ih =>
    refine .next (.report f n.info) fun _ => (hev.statement hf (hns n (by simp))).polled id fun v hv => ?_
    refine ih (fun c hc => hns c (by simp [hc])) (fun hrest => ?_) fun c w hc => hP c w ?_
    · subst hrest
      exact hP n v rfl hv
    · rw [List.getLast?_cons, hc]
      rfl

theorem honest_stmts (hf : f.Plain) {i : Info} {stmts : List Node} {ownScope : Bool}
    (hn : (Node.mk i (.block stmts ownScope)).Faithfully typed asked T) :
    Honest T (Eval.statements ev f stmts .void) ((Node.mk i (.block stmts ownScope)).Promises asked) := by
  have hegress : i.egress = Compile.lastType stmts := by
    cases hn.statement with
    | block parts egress => exact egress
    | expression h => cases h
  have hparts : ∀ c ∈ stmts, c.Faithfully typed asked T := fun c hc => hn.own hc
  refine honest_statements hev hf hparts (fun hnil _ => ?_) fun c v hc hv => hv.of_base ?_ fun _ => ?_
  · subst hnil
    exact (Value.meets_typeOf .void).cast hegress
  · simp [Node.bases, hc]
  · change i.egress = c.egress
    simp [hegress, Compile.lastType, hc]

theorem honest_unscoped (hf : f.Plain) {n : Node} (hn : n.Faithfully typed asked T) :
    Honest T (Eval.unscoped ev f n) (n.Promises asked) := by
  obtain ⟨i, kind⟩ := n
  cases kind with
  | block stmts own => exact honest_stmts hev hf hn
  | _ => exact hev.statement hf hn

theorem honest_ifChain {P : Value → Prop} {otherwise : Option Node} {branches : List (Node × Node)}
    (hconds : ∀ b ∈ branches, ¬ b.1.Returns) (hbodies : ∀ b ∈ branches, Honest T (ev f b.2) P)
    (hlast : ∀ n ∈ otherwise, Honest T (ev f n) P) (hnone : otherwise = none → P .void) :
    Honest T (Eval.ifChain ev f otherwise branches) P := by
  induction branches with
  | nil =>
    cases otherwise with
    | none => exact .pure (hnone rfl)
    | some n => exact hlast n rfl
  | cons b rest ih =>
    refine .next (.condition hev.discreet (hconds b (by simp))) fun _ => .ite (hbodies b (by simp)) ?_
    exact ih (fun c hc => hconds c (by simp [hc])) fun c hc => hbodies c (by simp [hc])

section Loops

variable {kind : LoopKind} {init cond next : Option Node} {body : Node}

theorem honest_iterate (hf : f.Plain) (hc : ∀ n ∈ cond, ¬ n.Returns) (hn : ∀ n ∈ next, ¬ n.Returns)
    (hb : body.Faithfully typed asked T) (fuel : Nat) :
    Honest T (Eval.iterate ev f kind cond next body fuel) (· = .void) := by
  induction fuel with
  | zero => exact .of_keeps .never fun _ _ _ h => by cases h
  | succ fuel ih =>
    refine (hev.statement hf hb).polled (fun _ => Value.void) fun _ _ => .next (.perform hev.discreet hn) fun _ => ?_
    exact .next (.goesOn hev.discreet hc) fun _ => .ite ih (.pure rfl)

theorem honest_loop (hf : f.Plain) (hi : ∀ n ∈ init, n.Faithfully typed asked T) (hc : ∀ n ∈ cond, ¬ n.Returns)
    (hn : ∀ n ∈ next, ¬ n.Returns) (hb : body.Faithfully typed asked T) (fuel : Nat) :
    Honest T (Eval.loop ev fuel f kind init cond next body) (· = .void) := by
  have hstarted : ∀ g : Frame, g.Plain → Honest T
      (Eval.perform ev g init >>= fun _ => Eval.turns ev fuel g kind cond next body) (· = .void) := by
    intro g hg
    have hiterate : Honest T (Eval.iterate ev g kind cond next body fuel) (· = .void) :=
      honest_iterate hev hg hc hn hb fuel
    have hinit : Honest T (Eval.perform ev g init) fun _ => True := by
      cases init with
      | none => exact .pure trivial
      | some n => exact (hev.statement hg (hi n rfl)).bind fun _ => .pure trivial
    exact hinit.bind fun _ =>
      .ite hiterate (.next (.goesOn hev.discreet hc) fun _ => .ite hiterate (.pure rfl))
  unfold Eval.loop
  split
  · exact .after (.inScope _ _) (fun _ _ _ h => hf.inScope h) hstarted
  · exact hstarted f hf

theorem honest_runItem {e : Eval.Each} (hf : e.frame.Plain) (hb : e.body.Faithfully typed asked T) (v : Value) :
    Honest T (e.runItem ev v) fun _ => True := by
  rw [Eval.Each.runItem_eq]
  refine .after (.bindItem e v) (fun _ _ _ h => hf.bindItem h) fun g hg => ?_
  exact (honest_unscoped hev hg hb).bind fun _ => .pure trivial

theorem honest_overItems {e : Eval.Each} (hf : e.frame.Plain) (hb : e.body.Faithfully typed asked T) (vs : List Value) :
    Honest T (e.overItems ev vs) (· = .void) := by
  induction vs with
  | nil => exact .pure rfl
  | cons v rest ih => exact (honest_runItem hev hf hb v).polled (fun _ => Value.void) fun _ _ => ih

theorem honest_overRange {e : Eval.Each} (hf : e.frame.Plain) (hb : e.body.Faithfully typed asked T) (n left : Nat) :
    Honest T (e.overRange ev n left) (· = .void) := by
  induction left with
  | zero => exact .pure rfl
  | succ left ih => exact (honest_runItem hev hf hb _).polled (fun _ => Value.void) fun _ _ => ih

theorem honest_forEach (hf : f.Plain) {subject : Node} (hs : ¬ subject.Returns) (hb : body.Faithfully typed asked T)
    (info : Info) (item : String) (ty : Option Ty) (site : SiteId) :
    Honest T (Eval.forEach ev f info item ty subject body site) (· = .void) := by
  refine .next (hev.discreet f subject hs) fun v => .ite (.pure rfl) (.next (.shapeOf site v) fun shape => ?_)
  cases shape with
  | none => exact .of_keeps (.fail _) fun _ _ _ h => by cases h
  | some _ =>
    have hplain : (Eval.Each.mk f info item ty body).frame.Plain := hf
    cases v with
    | int n => exact honest_overRange hev hplain hb _ _
    | _ => exact .next .get fun _ => honest_overItems hev hplain hb _

end Loops

/-! ## Nodes -/

/-- A declaration gives what its type promises, or what its value does. -/
theorem promises_declare (hf : f.Plain) {i : Info} {name : String} {value : Option Node} {ty : Ty} {register : Option Nat}
    (hv : ∀ n ∈ value, IsExpression typed n)
    (egress : i.egress = if ty = .any then (value.map Node.egress).getD .any else ty) {v : Value} {m m' : Machine}
    (h : Eval.declare ev f i name ty value register m = .ok v m') :
    (Node.mk i (.assignment (.name name) none value (some ty) register)).Promises asked v := by
  have bound : ∀ {w : Value} {ty' : Option Ty} {m₁ : Machine},
      (EvalM.stepStore (fun st => st.createIn f.scope name (.of w ty') register) >>= fun _ => pure w) m₁ = .ok v m' →
      v = w := by
    intro w ty' m₁ h
    obtain ⟨_, _, -, h⟩ := Run.bind_eq_ok.mp h
    cases h
    rfl
  unfold Eval.declare at h
  by_cases hty : ty = .any
  · subst hty
    rw [if_pos rfl] at egress
    cases value with
    | none => exact fun _ => (v.meets_any).cast egress
    | some n =>
      obtain ⟨w, m₁, hw, h⟩ := Run.bind_eq_ok.mp h
      cases bound h
      exact (hev.expression hf (hv n rfl) m v m₁ hw).of_base (by simp [Node.bases]) fun _ => egress
  · have hknown : ty.known? = some ty := by
      cases ty with
      | any => exact absurd rfl hty
      | _ => rfl
    rw [if_neg hty] at egress
    have converted : ∀ {w : Value} {m₁ : Machine},
        (EvalM.onHeap (f.errorIn i) (f.runtime.converter.convert w ty) >>= fun u =>
          EvalM.stepStore (fun st => st.createIn f.scope name (.of u (some ty)) register) >>= fun _ => pure u) m₁ =
            .ok v m' → v.Meets ty := by
      intro w m₁ h hisKnown
      obtain ⟨u, m₂, hu, h⟩ := Run.bind_eq_ok.mp h
      cases bound h
      obtain ⟨_, hu, -⟩ := EvalM.onHeap_eq_ok.mp hu
      exact hf.converter hu hisKnown
    rw [hknown] at h
    cases value with
    | none => exact fun _ => (converted h).cast egress
    | some n =>
      obtain ⟨w, m₁, -, h⟩ := Run.bind_eq_ok.mp h
      exact fun _ => (converted h).cast egress

omit hev in
/-- The branches of a chain whose type says something all have that type, and one is always taken. -/
theorem chainType_known {branches : List (Node × Node)} {otherwise : Option Node}
    (h : (Compile.chainType branches otherwise).isKnown = true) :
    (∀ b ∈ branches, Compile.chainType branches otherwise = b.2.egress) ∧
      ∃ last, otherwise = some last ∧ Compile.chainType branches otherwise = last.egress := by
  cases branches with
  | nil => cases h
  | cons b rest =>
    cases otherwise with
    | none => cases h
    | some last =>
      simp only [Compile.chainType] at h ⊢
      split at h
      next hall =>
        rw [if_pos hall]
        obtain ⟨hlast, hrest⟩ := (Bool.and_eq_true _ _).mp hall
        refine ⟨fun c hc => ?_, last, rfl, (of_decide_eq_true hlast).symm⟩
        exact (beq_iff_eq.mp (List.all_eq_true.mp hrest c hc)).symm
      next => cases h

theorem honest_return (hf : f.Plain) {i : Info} {value : Option Node} (hv : ∀ n ∈ value, IsExpression typed n)
    (egress : i.egress = (value.map Node.egress).getD .void)
    (hn : (Node.mk i (.returns value)).Faithfully typed asked T) :
    Honest T (Eval.step ev 0 f ⟨i, .returns value⟩) ((Node.mk i (.returns value)).Promises asked) := by
  obtain ⟨hty, hasked⟩ := hn.returns _ .here value rfl
  have noted : ∀ v : Value, v.Meets T →
      Honest T (Eval.setReturn v >>= fun _ => pure v) ((Node.mk i (.returns value)).Promises asked) := by
    intro v hv m w m' hm h
    cases h
    refine ⟨fun u hu => ?_, fun hnone => ?_⟩
    · cases hu
      exact hv
    · cases hnone
  cases value with
  | none => exact noted .void ((Value.meets_typeOf .void).cast (hty.symm.trans egress))
  | some n =>
    refine .after (hev.discreet f n (hv n rfl).not_returns) (fun m v m' h => ?_) noted
    have hpromise := (hev.expression hf (hv n rfl) m v m' h).of_base (n := ⟨i, .returns (some n)⟩)
      (by simp [Node.bases]) fun _ => egress
    exact (hpromise hasked).cast hty.symm

/-- A statement other than an expression gives what it promises, if its parts do. -/
theorem honest_step (hf : f.Plain) {n : Node} (hn : n.Faithfully typed asked T) (hne : ¬ IsExpression typed n) (fuel : Nat) :
    Honest T (Eval.step ev fuel f n) (n.Promises asked) := by
  have hvoid : n.egress = .void → ∀ v : Value, v = .void → n.Promises asked v := by
    rintro hegress v rfl _
    exact (Value.meets_typeOf .void).cast hegress
  have hproper : ∀ m ∈ n.own, m.Faithfully typed asked T := fun m hm => hn.own hm
  cases hn.statement with
  | expression h => exact absurd h hne
  | @declaration i name value ty register source egress =>
    have hkeeps : KeepsReturned (Eval.declare ev f i name ty value register) :=
      .declare hev.discreet (fun m hm => (source m hm).not_returns) _ _ _ _
    exact .of_keeps hkeeps fun m v m' h => promises_declare hev hf source egress h
  | @ifChain i branches otherwise conds bodies last egress =>
    have hknown : (Node.mk i (.ifChain branches otherwise)).egress.isKnown = true →
        (∀ b ∈ branches, i.egress = b.2.egress) ∧ ∃ last, otherwise = some last ∧ i.egress = last.egress := by
      change i.egress.isKnown = true → _
      rw [egress]
      exact chainType_known
    have hbranch : ∀ b ∈ branches, b.2 ∈ (Node.mk i (.ifChain branches otherwise)).own := fun b hb =>
      List.mem_append_left _ (List.mem_flatMap.mpr ⟨b, hb, by simp⟩)
    have hlast : ∀ c ∈ otherwise, c ∈ (Node.mk i (.ifChain branches otherwise)).own := fun c hc =>
      List.mem_append_right _ (Option.mem_toList.mpr hc)
    refine honest_ifChain hev (fun b hb => (conds b hb).not_returns) (fun b hb => ?_) (fun c hc => ?_) fun hnone _ h => ?_
    · refine (hev.statement hf (hproper b.2 (hbranch b hb))).imp fun v hv => ?_
      exact hv.of_base (List.mem_append_left _ (List.mem_map_of_mem hb)) fun h => (hknown h).1 b hb
    · refine (hev.statement hf (hproper c (hlast c hc))).imp fun v hv => ?_
      refine hv.of_base (List.mem_append_right _ (Option.mem_toList.mpr hc)) fun h => ?_
      obtain ⟨d, hd, hty⟩ := (hknown h).2
      cases hd.symm.trans hc
      exact hty
    · obtain ⟨d, hd, -⟩ := (hknown h).2
      cases hnone.symm.trans hd
  | @forEach i item ty subject body site items each egress =>
    have hbody : body.Faithfully typed asked T := hproper body (by simp [Node.own, Node.children])
    exact (honest_forEach hev hf items.not_returns hbody i item ty site).imp (hvoid egress)
  | @loop i kind init cond next body start test later each egress =>
    have hinit : ∀ m ∈ init, m.Faithfully typed asked T :=
      fun m hm => hproper m ((Node.mem_own_of_loop rfl).mpr (.inl hm))
    have hbody : body.Faithfully typed asked T := hproper body ((Node.mem_own_of_loop rfl).mpr (by simp))
    exact (honest_loop hev hf hinit (fun m hm => (test m hm).not_returns) (fun m hm => (later m hm).not_returns) hbody
      fuel).imp (hvoid egress)
  | functionDecl body egress => exact .next (.stepStore _) fun _ => .pure (hvoid egress _ rfl)
  | @block i stmts ownScope parts egress =>
    cases ownScope with
    | true => exact .after (.inScope _ _) (fun _ _ _ h => hf.inScope h) fun g hg => honest_stmts hev hg hn
    | false => exact honest_stmts hev hf hn
  | returns source egress => exact honest_return hev hf source egress hn
  | imports egress => exact .next (.stepStore _) fun _ => .pure (hvoid egress _ rfl)
  | asserts test egress =>
    refine .next (.condition hev.discreet test.not_returns) fun _ => .ite (.pure fun _ => ?_) ?_
    · exact (Value.meets_typeOf (.bool true)).cast egress
    · exact .of_keeps (.fail _) fun _ _ _ h => by cases h

end Statements

/-- Where the places that are asked to keep their promises, statements and returns do, whatever the fuel. -/
theorem Evaluator.Keeps.kept (fuel : Nat) : (Eval.kept asked fuel).Keeps typed asked T := by
  induction fuel with
  | zero =>
    refine ⟨.kept 0, fun hf hn m v m' h hasked => meets_kept hf.mode hn hasked h, fun {f n} hf hn m v m' hm h => ?_⟩
    obtain ⟨hk, rfl⟩ := Eval.node_zero_eq_ok (f := f) h
    refine ⟨hm, fun _ hasked => ?_⟩
    cases hn.statement with
    | expression hexpr => exact meets_kept hf.mode hexpr hasked h
    | _ => cases hk
  | succ fuel ih =>
    refine ⟨.kept (fuel + 1), fun hf hn m v m' h hasked => meets_kept hf.mode hn hasked h, fun {f n} hf hn => ?_⟩
    by_cases hexpr : IsExpression typed n
    · have hkeeps : KeepsReturned (Eval.kept asked (fuel + 1) f n) :=
        Evaluator.Discreet.kept (fuel + 1) f n hexpr.not_returns
      exact .of_keeps hkeeps fun m v m' h hasked => meets_kept hf.mode hexpr hasked h
    · exact fun m v m' hm h => honest_step ih hf hn hexpr fuel m v m' hm (Eval.kept_eq_ok h).1

end Promised

end PathScript
