import Mathlib.Data.List.Forall2
import PathScript.Access.Walk
import PathScript.Proofs.Lift

/-! # Prepared steps

A unit is made from what one walk met and is run where other values are met, in
place of the walk. The argument is local: a prepared step *fits* a segment when
its guard and its member were found together, for the member that the segment
names. A step that fits either does what the walk does there or hands over to
the walk with the arguments it has evaluated. -/

namespace PathScript

/-! ## What a segment is, apart from the expressions in it -/

/-- The form of a segment: its kind, the member it names and whether it takes `null`. -/
inductive Segment.Shape where
  | root (name : String)
  | this
  | base
  | property (name : String) (nullSafe : Bool)
  | index (nullSafe : Bool)
  | method (name : String) (nullSafe : Bool)
deriving DecidableEq, Inhabited

def Segment.shape : Segment → Segment.Shape
  | root name => .root name
  | this => .this
  | base _ => .base
  | property name safe => .property name safe
  | index _ safe => .index safe
  | method name _ safe => .method name safe

/-- The form of a first segment that is put behind `this`. -/
def Segment.Shape.rebased : Shape → Shape
  | root name => .property name false
  | s => s

theorem Segment.shape_rebased (s : Segment) : s.rebased.shape = s.shape.rebased := by
  cases s <;> rfl

/-- The forms of the segments of a path, in order. -/
def Path.shape (p : Path) : List Segment.Shape := p.segments.map Segment.shape

/-! ## Guards -/

namespace Guard

/-- A receiver that passes a guard has the class of the value the guard was made for, and like it is not `null`. -/
theorem classOf?_of_holds {g : Guard} {v w : Value} (classes : ClassTable) (hg : Guard.of? v = some g)
    (hw : g.holds w = true) : classes.classOf? w = classes.classOf? v ∧ w.isNull = false := by
  cases v <;> cases hg <;> cases w <;>
    simp_all [holds, Value.kind, ClassTable.classOf?, Value.isNull]

end Guard

/-! ## Members that a guard makes sure of -/

namespace SpecializedUnit

/-- A prepared property is the property of every receiver that passes the guard. -/
theorem readPrepared_eq_readProperty {host : Host} {v w : Value} {g : Guard} {name : String} {read : PropertyRead}
    (hg : Guard.of? v = some g) (hr : PropertyRead.of? host.classes v name = some read) (hw : g.holds w = true)
    (nullSafe : Bool) : readPrepared w read = Member.readProperty host w name nullSafe := by
  have hclass := (Guard.classOf?_of_holds host.classes hg hw).1
  cases v with
  | null | void => cases hg
  | map a =>
    cases hg
    cases hr
    cases w <;> simp [Guard.holds, Value.kind] at hw
    rfl
  | object c a =>
    cases hg
    cases w <;> simp [Guard.holds] at hw
    subst hw
    simp only [PropertyRead.of?] at hr
    cases hf : (host.classes.definition c).fieldIndex? name with
    | some i =>
      simp only [hf, Option.some.injEq] at hr
      subst hr
      simp [readPrepared, Member.readProperty, hf]
    | none =>
      simp only [hf, Option.map_eq_some_iff] at hr
      obtain ⟨m, hm, rfl⟩ := hr
      simp [readPrepared, Member.readProperty, hf, Member.readGetter, hclass, hm]
  | cls c =>
    cases hg
    cases w <;> simp [Guard.holds] at hw
    subst hw
    simp only [PropertyRead.of?, Option.map_eq_some_iff] at hr
    obtain ⟨value, hv, rfl⟩ := hr
    simp [readPrepared, Member.readProperty, hv]
  | array a =>
    cases hg
    cases w <;> simp [Guard.holds, Value.kind] at hw
    simp only [PropertyRead.of?] at hr
    split at hr
    · next hl =>
        cases hr
        simp [readPrepared, Member.readProperty, hl, Value.length?]
    · next hl =>
        obtain ⟨m, hm, rfl⟩ := Option.map_eq_some_iff.mp hr
        simp [readPrepared, Member.readProperty, hl, Member.readGetter, hclass, hm]
  | _ =>
    cases hg
    simp only [PropertyRead.of?, Option.map_eq_some_iff] at hr
    obtain ⟨m, hm, rfl⟩ := hr
    cases w <;> simp [Guard.holds, Value.kind] at hw
    simp [readPrepared, Member.readProperty, Member.readGetter, hclass, hm]

/-- A prepared method is the one that a call on every receiver that passes the guard reaches, for arguments of the
same types. -/
theorem invoke_eq_call {host : Host} {v w : Value} {g : Guard} {name : String} {types : List Ty}
    {chosen : Resolved MethodDef} (hg : Guard.of? v = some g)
    (hr : Member.resolve? host.classes v name types = some chosen) (hw : g.holds w = true)
    {args : List Value} (hargs : args.map Value.typeOf = types) (nullSafe : Bool) :
    Member.invoke host.converter chosen w args = Member.call host w name args nullSafe := by
  obtain ⟨hclass, hnull⟩ := Guard.classOf?_of_holds host.classes hg hw
  have hresolve : Member.resolve? host.classes w name types = some chosen := by
    rw [← hr]
    cases v <;> cases hg <;> cases w <;> simp_all [Guard.holds, Value.kind, Member.resolve?]
  simp [Member.call, hargs, hnull, hresolve]

theorem element_of_position {n : Int64} {items : Array Value} {v : Value}
    (h : (Member.position n items.size).toOption.bind (items[·]?) = some v) :
    (Run.ofExcept (Member.positionOf (.int n) items.size) >>= fun i => pure (items[i]?.getD .null) : HeapM Value) =
      pure v := by
  cases hp : Member.position n items.size with
  | error e => simp [hp, Except.toOption] at h
  | ok i =>
    simp only [hp, Except.toOption, Option.bind_some] at h
    have hpos : Member.positionOf (.int n) items.size = .ok i := hp
    rw [hpos]
    show (pure (items[i]?.getD .null) : HeapM Value) = pure v
    rw [h, Option.getD_some]

/-- An element or entry that is selected without further ado is the one that an index selects. -/
theorem readIndex_eq_indexPrepared (receiver index : Value) (nullSafe : Bool) :
    Member.readIndex receiver index nullSafe = (do
      match ← indexPrepared? receiver index with
      | some v => pure v
      | none => Member.readIndex receiver index nullSafe) := by
  funext h
  cases receiver with
  | list a =>
    cases index with
    | int n =>
      cases hv : (Member.position n (h.list a).size).toOption.bind ((h.list a)[·]?) with
      | none => simp only [indexPrepared?, Run.bind_apply, Run.get_apply, Run.pure_apply, hv]
      | some v =>
        simp only [indexPrepared?, Run.bind_apply, Run.get_apply, Run.pure_apply, hv]
        exact congrFun (element_of_position hv) h
    | _ => rfl
  | array a =>
    cases index with
    | int n =>
      cases hv : (Member.position n (h.array a).size).toOption.bind ((h.array a)[·]?) with
      | none => simp only [indexPrepared?, Run.bind_apply, Run.get_apply, Run.pure_apply, hv]
      | some v =>
        simp only [indexPrepared?, Run.bind_apply, Run.get_apply, Run.pure_apply, hv]
        exact congrFun (element_of_position hv) h
    | _ => rfl
  | map a => simp only [Member.readIndex, indexPrepared?, bind_assoc, pure_bind]
  | _ => cases index <;> rfl

end SpecializedUnit

/-! ## Steps that fit a segment -/

/-- Whether a prepared step can stand in for a segment. The property it reads, or the method it calls where the
segment is a call, is the one that its guard was found with. Where the segment is of another kind, an index or a
method hands over to the walk; a property does not look at the segment. -/
def UnitStep.Fits (classes : ClassTable) : UnitStep → Segment → Prop
  | general, _ => True
  | this, s => s = .this
  | property guard read, s =>
    ∃ name safe v, s = .property name safe ∧ Guard.of? v = some guard ∧ PropertyRead.of? classes v name = some read
  | index guard, _ => ∃ v : Value, Guard.of? v = some guard
  | method guard chosen types, s => ∀ name args safe, s = .method name args safe →
    ∃ v, Guard.of? v = some guard ∧ Member.resolve? classes v name types = some chosen

/-- A step made from what a walk met at a segment fits every segment of the same form. -/
theorem UnitStep.of_fits (classes : ClassTable) {s s' : Segment} (h : s.shape = s'.shape) (seen : Observed) :
    (UnitStep.of classes s seen).Fits classes s' := by
  cases s with
  | root name => trivial
  | base n => trivial
  | this => cases s' <;> simp_all [Segment.shape, UnitStep.of, Fits]
  | property name safe =>
    cases s' <;> simp only [Segment.shape, reduceCtorEq, Segment.Shape.property.injEq] at h
    obtain ⟨rfl, rfl⟩ := h
    simp only [UnitStep.of]
    split
    · next guard read hg hr => exact ⟨_, _, _, rfl, hg, hr⟩
    · trivial
  | index n safe =>
    simp only [UnitStep.of]
    split
    · next a ha => exact ⟨.list a, by rw [ha]; rfl⟩
    · next a ha => exact ⟨.array a, by rw [ha]; rfl⟩
    · next a ha => exact ⟨.map a, by rw [ha]; rfl⟩
    · trivial
  | method name args safe =>
    simp only [UnitStep.of]
    split
    · next guard chosen hg hr =>
        intro name' args' safe' hs
        subst hs
        cases h
        exact ⟨_, hg, hr⟩
    · trivial

theorem UnitStep.ofPath_fits (classes : ClassTable) (met : List Observed) {made used : List Segment}
    (h : made.map Segment.shape = used.map Segment.shape) :
    List.Forall₂ (Fits classes) (UnitStep.ofPath classes made met) used := by
  induction made generalizing used met with
  | nil =>
    rw [List.map_nil, eq_comm, List.map_eq_nil_iff] at h
    subst h
    exact .nil
  | cons s rest ih =>
    cases used with
    | nil => cases h
    | cons s' rest' =>
      rw [List.map_cons, List.map_cons, List.cons.injEq] at h
      cases met with
      | nil => exact .cons trivial (ih [] h.2)
      | cons o seen => exact .cons (UnitStep.of_fits classes h.1 o) (ih seen h.2)

/-! ## A unit and the walk -/

namespace Walk

variable (ev : Evaluator) (f : Frame) (path : Path)

theorem along_cons_value (s : Segment) (rest : List Segment) (receiver : Value) (pending : Option (List Value)) :
    (do pure (← along ev f path (s :: rest) receiver pending).1) = (do
      let stepped ← step ev f path s receiver pending
      pure (← along ev f path rest stepped.1 none).1) := by
  simp only [along, bind_assoc, pure_bind]

end Walk

namespace SpecializedUnit

variable (ev : Evaluator) (f : Frame) (path : Path)

/-- Trying a step that fits, and walking if it misses, is walking. -/
theorem probe_or_step {β : Type} {prepared : UnitStep} {s : Segment} (hfit : prepared.Fits f.world.classes s)
    (receiver : Value) (k : Value → EvalM β) : (do
      match ← probe ev f path prepared s receiver with
      | .hit v => k v
      | .miss pending => do
        let stepped ← Walk.step ev f path s receiver pending
        k stepped.1) = (do
      let stepped ← Walk.step ev f path s receiver none
      k stepped.1) := by
  cases prepared with
  | general => simp only [probe, bind_assoc, pure_bind]
  | this =>
    cases hfit
    simp only [probe, Walk.step, pure_bind]
  | property guard read =>
    obtain ⟨name, safe, v, rfl, hg, hr⟩ := hfit
    cases hw : guard.holds receiver with
    | false => simp only [probe, hw, Bool.false_eq_true, if_false, pure_bind]
    | true =>
      have hread := @readPrepared_eq_readProperty f.host _ _ _ _ _ hg hr hw safe
      simp only [probe, Walk.step, hw, if_true, bind_assoc, pure_bind, hread]
  | index guard =>
    obtain ⟨v, hg⟩ := hfit
    cases hw : guard.holds receiver with
    | false => simp only [probe, hw, pure_bind]
    | true =>
      cases s with
      | index n safe =>
        have hnull := (Guard.classOf?_of_holds f.world.classes hg hw).2
        simp only [probe, Walk.step, hw, hnull, Option.bind_none, Bool.false_eq_true, if_false, bind_assoc,
          pure_bind]
        congr 1
        funext index
        -- The index is evaluated once: a miss hands its value on to the walk.
        rw [readIndex_eq_indexPrepared, EvalM.onHeap_bind, bind_assoc]
        congr 1
        funext found
        cases found with
        | some v => simp only [EvalM.onHeap_pure, pure_bind]
        | none => simp only [pure_bind, Option.bind_some, List.getLast?_singleton, bind_assoc]
      | _ => simp only [probe, hw, pure_bind]
  | method guard chosen types =>
    cases hw : guard.holds receiver with
    | false => simp only [probe, hw, pure_bind]
    | true =>
      cases s with
      | method name args safe =>
        obtain ⟨v, hg, hr⟩ := hfit name args safe rfl
        have hnull := (Guard.classOf?_of_holds f.world.classes hg hw).2
        simp only [probe, Walk.step, hw, hnull, Bool.false_eq_true, if_false, bind_assoc, pure_bind]
        congr 1
        funext values
        by_cases htypes : values.map Value.typeOf = types
        · have hcall := @invoke_eq_call f.host _ _ _ _ _ _ hg hr hw _ htypes safe
          simp only [htypes, if_true, bind_assoc, pure_bind, ← hcall]
          rfl
        · simp only [htypes, if_false, pure_bind, bind_assoc]
      | _ => simp only [probe, hw, pure_bind]

/-- Running steps that fit the segments is walking along them. -/
theorem runSteps_eq_along {steps : List UnitStep} {segments : List Segment}
    (hfit : List.Forall₂ (UnitStep.Fits f.world.classes) steps segments) (receiver : Value) :
    runSteps ev f path steps segments receiver = (do pure (← Walk.along ev f path segments receiver none).1) := by
  induction hfit generalizing receiver with
  | nil => rfl
  | @cons prepared s steps rest hstep _ ih =>
    rw [Walk.along_cons_value]
    refine Eq.trans ?_ (probe_or_step ev f path hstep receiver fun v => do
      pure (← Walk.along ev f path rest v none).1)
    simp only [runSteps]
    congr 1
    funext probed
    cases probed with
    | hit v => exact ih v
    | miss pending => exact Walk.along_cons_value ev f path s rest receiver pending

/-- A unit whose steps fit the segments of a path gives what the walk along the path gives. -/
theorem run_eq_read {u : SpecializedUnit} (hfit : List.Forall₂ (UnitStep.Fits f.world.classes) u.steps path.segments) :
    u.run ev f path = Walk.read ev f path := by
  unfold run Walk.read
  rw [if_pos (show path.length = u.steps.length from hfit.length_eq.symm)]
  exact runSteps_eq_along ev f path hfit .null

end SpecializedUnit

/-- An evaluator that notes every node it is given, in whatever way, before it evaluates it. -/
def Evaluator.noting (note : Frame → Node → Machine → Machine) (ev : Evaluator) : Evaluator := fun f n => do
  Run.modify (note f n)
  ev f n

/-- A unit that was generated from whatever a walk met along a path, in any frame and state, is as good as the walk
along every path of the same form, in every frame with the same classes. Both are the same computation: they give the
same value or the same error and leave the same machine. As this holds for every way of evaluating nodes, also for one
that notes each node it is given, they evaluate the same indices and arguments in the same order, none of them twice
where the walk evaluates it once. -/
theorem SpecializedUnit.run_generate_eq_read {made path : Path} (hshape : made.shape = path.shape) (f : Frame)
    (key : UnitKey) (met : List Observed) (result : Value) :
    (∀ ev, (generate f.world.classes key made met result).run ev f path = Walk.read ev f path) ∧
      ∀ ev note, (generate f.world.classes key made met result).run (Evaluator.noting note ev) f path =
        Walk.read (Evaluator.noting note ev) f path := by
  have hfit := UnitStep.ofPath_fits f.world.classes met hshape
  exact ⟨fun ev => run_eq_read ev f path hfit, fun ev note => run_eq_read (Evaluator.noting note ev) f path hfit⟩

/-- A unit that was made where `a` was a map and `a.b` a list is used for another path of that form. -/
theorem SpecializedUnit.run_generate_eq_read_of_map :
    let world : World := ⟨.standard, #[], #[], fun _ => 0⟩
    let runtime : Runtime := ⟨.standard, ConversionRegistry.empty.converter, .standard, none, .empty⟩
    let f : Frame := ⟨world, runtime, .null, .null, [], [], .accelerated, false, 0⟩
    let zero : Node := ⟨default, .literal (.int 0)⟩
    let made : Path := ⟨"a.b[0].c()", ⟨0, 10⟩,
      [.root "a", .property "b" false, .index zero false, .method "size" [] true], [1, 3, 6, 10], none⟩
    let path : Path := ⟨"a.b[1].c()", ⟨5, 15⟩,
      [.root "a", .property "b" false, .index ⟨default, .emptyWord⟩ false, .method "size" [] true], [1, 3, 6, 10], some 2⟩
    let met : List Observed := [⟨.null, []⟩, ⟨.map 0, []⟩, ⟨.list 0, [.int]⟩, ⟨.list 1, []⟩]
    let u := generate f.world.classes ⟨"a.b[0].c()", "Map"⟩ made met (.int 0)
    made.shape = path.shape ∧ ∀ ev, u.run ev f path = Walk.read ev f path := by
  intro world runtime f zero made path met u
  have hshape : made.shape = path.shape := rfl
  exact ⟨hshape, (SpecializedUnit.run_generate_eq_read hshape f _ met _).1⟩

end PathScript
