import PathScript.Access.Accessor
import PathScript.Eval
import PathScript.Proofs.Lift

/-! # Choices of `new` expressions

A site remembers the last choice of a `new` expression with the types of the
arguments, and uses it again if the types are the same and the name still stands
for the class, or for none that has constructors. Nothing else went into the
choice. The host may add classes between evaluations; a class that has
constructors keeps its definition. -/

namespace PathScript

/-! ## What was chosen -/

theorem getElem?_of_grown {α : Type} {xs ys : List α} {i : Nat} {x : α} (h : xs[i]? = some x) (hle : xs <+: ys) :
    ys[i]? = some x := by
  obtain ⟨more, rfl⟩ := hle
  obtain ⟨hlt, -⟩ := List.getElem?_eq_some_iff.mp h
  rw [List.getElem?_append_left hlt, h]

/-- A table of classes to which others were added. -/
def ClassTable.Extends (t t' : ClassTable) : Prop := t.hosts.toList <+: t'.hosts.toList

theorem ClassTable.Extends.definition_eq {t t' : ClassTable} (h : t.Extends t') {ref : ClassRef}
    (hctors : (t.definition ref).constructors.isEmpty = false) : t'.definition ref = t.definition ref := by
  unfold definition at hctors ⊢
  cases href : ref.definition with
  | none => rfl
  | some i =>
    simp only [href] at hctors ⊢
    split
    next => rfl
    next hi =>
      rw [if_neg hi] at hctors
      cases hget : t.hosts[i - builtinClasses.size]? with
      | none => rw [hget] at hctors; cases hctors
      | some d =>
        rw [← Array.getElem?_toList] at hget
        rw [← Array.getElem?_toList, getElem?_of_grown hget h]

namespace Creation

variable {c : Creation} {classes classes' : ClassTable} {types : List Ty} {target : NewTarget} {f : Frame} {st : Store}

/-- A choice for arguments of some types, if the name stands for a class or for none with constructors. -/
def Chosen (classes : ClassTable) (c : Creation) (types : List Ty) : NewTarget → Prop
  | .instanceOf cls chosen => (classes.definition cls).constructors.isEmpty = false ∧
      resolveOverload ConstructorDef.params types (classes.definition cls).constructors = some chosen
  | .builtin ty => c.builtin types = .ok (.builtin ty)

theorem Chosen.mono (h : c.Chosen classes types target) (hext : classes.Extends classes') : c.Chosen classes' types target := by
  cases target with
  | builtin ty => exact h
  | instanceOf cls chosen =>
    obtain ⟨hctors, hchosen⟩ := h
    have hsame := hext.definition_eq hctors
    exact ⟨hsame ▸ hctors, hsame ▸ hchosen⟩

theorem builtin_ne_instanceOf {cls : ClassRef} {chosen : Resolved ConstructorDef} :
    c.builtin types ≠ .ok (.instanceOf cls chosen) := by
  unfold builtin
  repeat' split
  all_goals exact nofun

theorem chosen_of_target (h : c.target f st types = .ok target) : c.Chosen f.world.classes types target := by
  have hbuiltin : c.builtin types = .ok target → c.Chosen f.world.classes types target := by
    intro h
    cases target with
    | builtin ty => exact h
    | instanceOf cls chosen => exact absurd h builtin_ne_instanceOf
  unfold Creation.target at h
  split at h
  next => exact hbuiltin h
  next =>
    dsimp only at h
    split at h
    next => exact hbuiltin h
    next hctors =>
      split at h
      next hfound => cases h; exact ⟨Bool.eq_false_iff.mpr hctors, hfound⟩
      next => cases h

theorem Chosen.target_eq (h : c.Chosen f.world.classes types target) (hcurrent : c.isCurrent f st target = true) :
    c.target f st types = .ok target := by
  cases target with
  | instanceOf cls chosen =>
    obtain ⟨hctors, hchosen⟩ := h
    have hname : f.classNamed? st c.className = some cls := beq_iff_eq.mp hcurrent
    simp only [Creation.target, hname, hctors, hchosen]
    rfl
  | builtin ty =>
    unfold isCurrent at hcurrent
    unfold Creation.target
    cases hname : f.classNamed? st c.className with
    | none => exact h
    | some cls =>
      rw [hname] at hcurrent
      dsimp only
      rw [if_pos hcurrent]
      exact h

/-! ## Choosing by what a site remembers -/

/-- What a site remembers of a choice is a choice that was made. -/
def Remembers (classes : ClassTable) (c : Creation) (s : CreationSite) : Prop :=
  ∀ types target, s = .cached (some (types, target)) → c.Chosen classes types target

theorem Remembers.mono {s : CreationSite} (h : Remembers classes c s) (hext : classes.Extends classes') :
    Remembers classes' c s := fun types target hs => (h types target hs).mono hext

theorem remembers_chosen (h : c.Chosen classes types target) : Remembers classes c (.cached (some (types, target))) := by
  intro _ _ heq
  cases heq
  exact h

/-- A site that takes note of a choice, if it remembers any. -/
def note (types : List Ty) (target : NewTarget) : CreationSite → CreationSite
  | .plain => .plain
  | .cached _ => .cached (some (types, target))

theorem Remembers.note (h : c.Chosen classes types target) (s : CreationSite) : Remembers classes c (note types target s) := by
  cases s with
  | plain => intro _ _ heq; cases heq
  | cached last => exact remembers_chosen h

/-- A choice that is made now. -/
def choose (f : Frame) (c : Creation) (types : List Ty) : EvalM NewTarget :=
  EvalM.onStore (c.error f) (do Run.ofExcept (c.target f (← Run.get) types))

theorem choose_apply (f : Frame) (c : Creation) (types : List Ty) (m : Machine) :
    choose f c types m = match c.target f m.store types with
      | .ok target => .ok target m
      | .error fault => .error (c.error f fault) m := by
  simp only [choose, EvalM.onStore_apply, Run.bind_apply, Run.get_apply]
  cases c.target f m.store types <;> rfl

/-- The choice by what a site remembers, and what the site is to remember. -/
def chooseBy (f : Frame) (c : Creation) (types : List Ty) : CreationSite → EvalM (NewTarget × CreationSite)
  | .plain => do
    let target ← choose f c types
    pure (target, .plain)
  | .cached last => do
    let m ← Run.get
    let kept := last.filter fun (seen, target) => seen == types && c.isCurrent f m.store target
    let target ← match kept with
      | some (_, target) => pure target
      | none => choose f c types
    pure (target, .cached (some (types, target)))

theorem createVia_eq (ev : Evaluator) (f : Frame) (c : Creation) (x : EvalM CreationSite) :
    Access.createVia ev f c x = (Walk.evalAll ev f c.args >>= fun args => x >>= fun s =>
      chooseBy f c (args.map Value.typeOf) s >>= fun r =>
        EvalM.onHeap (c.error f) (make f args r.1) >>= fun v => pure (v, r.2)) := by
  unfold Access.createVia
  refine bind_congr fun args => bind_congr fun s => ?_
  cases s with
  | plain => simp only [chooseBy, choose, bind_assoc, pure_bind]
  | cached last =>
    simp only [chooseBy, bind_assoc]
    refine bind_congr fun m => ?_
    cases last.filter fun x => x.1 == args.map Value.typeOf && c.isCurrent f m.store x.2 with
    | none => simp only [choose, bind_assoc, pure_bind]
    | some kept => simp only [pure_bind]

/-- By a choice that was made the same is chosen as from scratch, and noted. -/
theorem chooseBy_eq {s : CreationSite} (hs : Remembers f.world.classes c s) :
    chooseBy f c types s = (choose f c types >>= fun target => pure (target, note types target s)) := by
  cases s with
  | plain => rfl
  | cached last =>
    funext m
    rw [chooseBy, Run.bind_ok (Run.get_apply m)]
    cases hkept : last.filter fun e => e.1 == types && c.isCurrent f m.store e.2 with
    | none => rfl
    | some kept =>
      obtain ⟨seen, target⟩ := kept
      obtain ⟨hsome, hboth⟩ := Option.filter_eq_some_iff.mp hkept
      obtain ⟨hseen, hcurrent⟩ := (Bool.and_eq_true _ _).mp hboth
      obtain rfl : seen = types := beq_iff_eq.mp hseen
      have htarget := (hs seen target (by rw [hsome])).target_eq hcurrent
      have hchoose : choose f c seen m = .ok target m := by rw [choose_apply, htarget]
      rw [Run.bind_ok hchoose]
      rfl

theorem construct_eq (ev : Evaluator) (f : Frame) (c : Creation) :
    c.construct ev f = (Walk.evalAll ev f c.args >>= fun args => choose f c (args.map Value.typeOf) >>= fun target =>
      EvalM.onHeap (c.error f) (make f args target) >>= fun v => pure (v, args.map Value.typeOf, target)) := rfl

/-! ## Sequences of evaluations -/

/-- An evaluation of a `new` expression: how nodes are evaluated, in which frame and in which state. -/
structure Visit where
  ev : Evaluator
  frame : Frame
  machine : Machine

/-- What an accessor that remembers a choice can be after an evaluation: the one that came with the answer; one that
has noted the choice, where no value could be made; or the one it was. -/
inductive Leaves (c : Creation) (visit : Visit) (a : Accessor) : Accessor → Prop where
  | answered {v : Value} {a' : Accessor} {m : Machine} (hget : a.get visit.ev visit.frame visit.machine = .ok (v, a') m) :
      Leaves c visit a a'
  | chosen {args : List Value} {m : Machine} {target : NewTarget}
      (hargs : Walk.evalAll visit.ev visit.frame c.args visit.machine = .ok args m)
      (htarget : c.target visit.frame m.store (args.map Value.typeOf) = .ok target) :
      Leaves c visit a (.creation c (.cached (some (args.map Value.typeOf, target))))
  | unchanged : Leaves c visit a a

/-- One evaluation by what is remembered is one from scratch, and what it leaves is remembered rightly. -/
theorem get_eq_construct {last : Option (List Ty × NewTarget)} (h : Remembers f.world.classes c (.cached last)) (ev : Evaluator) :
    (Accessor.creation c (.cached last)).get ev f =
      (c.construct ev f >>= fun made => pure (made.1, .creation c (.cached (some made.2)))) := by
  simp only [Accessor.get, createVia_eq, construct_eq, chooseBy_eq h, bind_assoc, pure_bind, note]

theorem chosen_of_construct {ev : Evaluator} {m m' : Machine} {v : Value} (h : c.construct ev f m = .ok (v, types, target) m') :
    c.Chosen f.world.classes types target := by
  rw [construct_eq] at h
  obtain ⟨args, m₁, -, h⟩ := Run.bind_eq_ok.mp h
  obtain ⟨chosen, m₂, hchosen, h⟩ := Run.bind_eq_ok.mp h
  obtain ⟨v', m₃, -, h⟩ := Run.bind_eq_ok.mp h
  cases h
  rw [choose_apply] at hchosen
  split at hchosen
  next htarget => cases hchosen; exact chosen_of_target htarget
  next => cases hchosen

theorem Leaves.remembers {visit : Visit} {last : Option (List Ty × NewTarget)} {a : Accessor}
    (hleaves : c.Leaves visit (.creation c (.cached last)) a) (h : Remembers visit.frame.world.classes c (.cached last)) :
    ∃ last', a = .creation c (.cached last') ∧ Remembers visit.frame.world.classes c (.cached last') := by
  cases hleaves with
  | answered hget =>
    rw [get_eq_construct h] at hget
    obtain ⟨⟨v, types, target⟩, m, hmade, hpure⟩ := Run.bind_eq_ok.mp hget
    cases hpure
    exact ⟨_, rfl, remembers_chosen (chosen_of_construct hmade)⟩
  | chosen hargs htarget => exact ⟨_, rfl, remembers_chosen (chosen_of_target htarget)⟩
  | unchanged => exact ⟨last, rfl, h⟩

/-- Caching is transparent. Let an accessor that starts with nothing remembered be evaluated again and again, by any
evaluators, in any frames and states: the name may stand for another class every time, or for none, the arguments may
be of other types, and the host may add classes. Then every evaluation does what `construct` does from scratch: it
gives the same value, or the same error, in the same state, and what it remembers is the choice of `construct`. -/
theorem caching_transparent (c : Creation) (visits : Nat → Visit) (accessors : Nat → Accessor)
    (hstart : accessors 0 = .creation c (.cached none))
    (hclasses : ∀ i, (visits i).frame.world.classes.Extends (visits (i + 1)).frame.world.classes)
    (hleaves : ∀ i, c.Leaves (visits i) (accessors i) (accessors (i + 1))) (i : Nat) :
    (accessors i).get (visits i).ev (visits i).frame =
      (c.construct (visits i).ev (visits i).frame >>= fun made => pure (made.1, .creation c (.cached (some made.2)))) := by
  have hrun : ∃ last, accessors i = .creation c (.cached last) ∧
      Remembers (visits i).frame.world.classes c (.cached last) := by
    induction i with
    | zero => exact ⟨none, hstart, nofun⟩
    | succ i ih =>
      obtain ⟨last, hlast, hremembers⟩ := ih
      obtain ⟨last', hlast', hremembers'⟩ := (hlast ▸ hleaves i).remembers hremembers
      exact ⟨last', hlast', hremembers'.mono (hclasses i)⟩
  obtain ⟨last, hlast, hremembers⟩ := hrun
  rw [hlast, get_eq_construct hremembers]

/-- Where the name stands for no class a list is made, and that is remembered. Then the name stands for a class of the host:
an instance of it is made, although the arguments are the same. -/
theorem caching_transparent_rebound :
    let c : Creation := ⟨"ArrayList", [], default⟩
    let shelf : ClassDef := ⟨"Shelf", [], .empty, [], [⟨[], fun _ _ => pure ()⟩]⟩
    let runtime : Runtime := ⟨.standard, default, ⟨.empty⟩, none, .empty⟩
    let frame (scope : Chain) : Frame := ⟨⟨⟨#[shelf]⟩, #[], #[], fun _ => 0⟩, runtime, .null, .null, scope, [], .accelerated,
      false, 0⟩
    let m : Machine := { Machine.start 0 with
      store := ⟨.empty, ⟨#[⟨.global, [("ArrayList", some 0)]⟩]⟩, ⟨#[⟨.cls ⟨"Shelf", some 9⟩, none⟩]⟩⟩ }
    let kept := Accessor.creation c (.cached (some ([], .builtin .list)))
    (∃ m', (Accessor.creation c (.cached none)).get (Eval.node 1) (frame []) m = .ok (.list 0, kept) m') ∧
      ∃ made m', kept.get (Eval.node 1) (frame [0]) m = .ok (.object ⟨"Shelf", some 9⟩ 0, made) m' := by
  intro c shelf runtime frame m kept
  have hfirst : ∃ m', (Accessor.creation c (.cached none)).get (Eval.node 1) (frame []) m = .ok (.list 0, kept) m' :=
    ⟨_, rfl⟩
  let visits (i : Nat) : Visit := ⟨Eval.node 1, frame (if i = 0 then [] else [0]), m⟩
  let accessors (i : Nat) : Accessor := if i = 0 then .creation c (.cached none) else kept
  have hleaves : ∀ i, c.Leaves (visits i) (accessors i) (accessors (i + 1)) := by
    intro i
    cases i with
    | zero => exact .answered hfirst.choose_spec
    | succ i => exact .unchanged
  have hsecond := caching_transparent c visits accessors rfl (fun _ => List.prefix_refl _) hleaves 1
  refine ⟨hfirst, ?_⟩
  show ∃ made m', (accessors 1).get (visits 1).ev (visits 1).frame m = .ok (.object ⟨"Shelf", some 9⟩ 0, made) m'
  rw [hsecond]
  exact ⟨_, _, rfl⟩

end Creation

end PathScript
