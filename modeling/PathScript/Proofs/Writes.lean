import PathScript.Proofs.Placement
import PathScript.Proofs.Promise
import PathScript.Proofs.Setter.Write

/-! # Writes, whole or not at all

A write stores last. By then its target, its index and its value have been
looked at, and whatever there is to refuse has been refused. -/

namespace PathScript

/-! ## Failing without a change -/

/-- If a computation fails, the states before and after are related so. -/
def Run.Fails {σ ε α : Type} (R : σ → σ → Prop) (x : Run σ ε α) : Prop := ∀ s e t, x s = .error e t → R s t

namespace Run.Fails

variable {σ ε α β : Type} {R : σ → σ → Prop} {x : Run σ ε α} {k : α → Run σ ε β}

theorem of_ends (hx : x.Ends R) : x.Fails R := fun _ _ _ h => hx.error h

theorem of_eq [Std.Refl R] (hx : x.Fails Eq) : x.Fails R := fun s e t h => hx s e t h ▸ refl_of R _

theorem bind [IsTrans σ R] (hx : x.Ends R) (hk : ∀ a, (k a).Fails R) : (x >>= k).Fails R := by
  intro s e t h
  obtain hs | ⟨a, s', hs, ht⟩ := bind_eq_error.mp h
  · exact hx.error hs
  · exact trans_of R (hx.ok hs) (hk a _ _ _ ht)

theorem andThen (hx : x.Fails R) (hk : ∀ a s e t, k a s ≠ .error e t) : (x >>= k).Fails R := by
  intro s e t h
  obtain hs | ⟨a, s', -, ht⟩ := bind_eq_error.mp h
  · exact hx _ _ _ hs
  · exact (hk _ _ _ _ ht).elim

theorem ite {c : Prop} [Decidable c] {y : Run σ ε α} (hx : x.Fails R) (hy : y.Fails R) : (if c then x else y).Fails R := by
  split
  · exact hx
  · exact hy

end Run.Fails

theorem Store.fails_onHeap {α : Type} {x : HeapM α} (hx : x.Fails Eq) : (Store.onHeap x).Fails Eq := by
  intro st e st' h
  rw [Store.onHeap_apply] at h
  cases hheap : x st.heap with
  | error e' h' =>
    rw [hheap] at h
    cases h
    rw [← hx _ _ _ hheap]
  | _ => rw [hheap] at h; cases h

theorem EvalM.fails_onStore {α : Type} {x : StoreM α} (hx : x.Fails Eq) (locate : Fault → EvalError) :
    (EvalM.onStore locate x).Fails Eq := by
  intro m e m' h
  rw [EvalM.onStore_apply] at h
  cases hstore : x m.store with
  | error e' st =>
    rw [hstore] at h
    cases h
    rw [← hx _ _ _ hstore]
  | _ => rw [hstore] at h; cases h

theorem EvalM.fails_onHeap {α : Type} {x : HeapM α} (hx : x.Fails Eq) (locate : Fault → EvalError) :
    (EvalM.onHeap locate x).Fails Eq := EvalM.fails_onStore (Store.fails_onHeap hx) locate

theorem EvalM.ends_onHeap {α : Type} {x : HeapM α} (hx : x.Ends Eq) (locate : Fault → EvalError) :
    (EvalM.onHeap locate x).Ends Eq where
  ok h := by
    obtain ⟨h', hok, rfl⟩ := EvalM.onHeap_eq_ok.mp h
    rw [← hx.ok hok]
    rfl
  error h := EvalM.fails_onHeap (.of_ends hx) locate _ _ _ h

/-! ## Conversions -/

/-- A converter that makes new containers at most, and none if it refuses a value. -/
structure Converter.Pure (c : Converter) : Prop where
  keeps : c.Keeps
  refuses : ∀ v ty, (c.convert v ty).Fails Eq

theorem Convert.fails_convert (v : Value) (target : Ty) : (Convert.convert v target).Fails Eq := by
  have refuse : (Convert.refuse v target).Fails Eq :=
    .bind (.bind (.query _) fun _ => .pure _) fun _ => .of_ends (.fail _)
  unfold Convert.convert
  split
  · exact fun _ _ _ => nofun
  · exact .ite (fun _ _ _ => nofun) refuse
  · exact fun _ _ _ => nofun
  · exact fun _ _ _ => nofun
  · refine .bind (.query _) fun found => ?_
    cases found with
    | some w => exact fun _ _ _ => nofun
    | none => exact refuse

/-- The built-in rules are pure, and so are they under converters of the host that are. -/
theorem ConversionRegistry.pure {r : ConversionRegistry} (hr : ∀ e ∈ r.custom, e.2.Pure) : r.converter.Pure where
  keeps := ConversionRegistry.keeps fun e he => (hr e he).keeps
  refuses v ty := by
    obtain ⟨e, he, heq⟩ | heq := r.convert_cases v ty
    · exact heq ▸ (hr e he).refuses v ty
    · exact heq ▸ Convert.fails_convert v ty

/-! ## Members and bindings -/

namespace Value

variable (classes : ClassTable)

/-- Whether writing a property is left to a setter: the class has one for a name that is no field. -/
def asksSetter (name : String) : Value → Bool
  | object c _ => ((classes.definition c).fieldIndex? name).isNone && ((classes.definition c).setter? name).isSome
  | _ => false

/-- A map that is on the heap, or an object with a value for each of its fields. -/
def OnHeap (h : Heap) : Value → Prop
  | map a => (h.maps.get? a).isSome = true
  | object c a => ∀ name i, (classes.definition c).fieldIndex? name = some i → i < (h.object a).length
  | _ => True

end Value

/-- The heap with a value stored at a place that it has; beside that there may be new containers. -/
structure Heap.Stored (h h' : Heap) (p : Place) (w : Value) : Prop extends h.Replaced h' p w where
  place : (h.at? p).isSome = true
  put : ∃ h₁, h.Extends h₁ ∧ h' = h₁.put w p

theorem Heap.Extends.stored {h h' : Heap} {p : Place} (hext : h.Extends h') (hp : (h.at? p).isSome = true) (w : Value) :
    h.Stored (h'.put w p) p w := ⟨hext.replaced p w, hp, h', hext, rfl⟩

namespace Member

variable {host : Host} {h h' : Heap} {target index v w : Value} {name : String}

theorem setter?_of_asksSetter {c : ClassRef} {a : Nat} (hset : (Value.object c a).asksSetter host.classes name = false)
    (hi : (host.classes.definition c).fieldIndex? name = none) : (host.classes.definition c).setter? name = none := by
  simpa [Value.asksSetter, hi] using hset

theorem fails_writeProperty (host : Host) (hpure : host.converter.Pure) (hset : target.asksSetter host.classes name = false) :
    (writeProperty host target name v).Fails Eq := by
  cases target with
  | map a => exact fun _ _ _ => nofun
  | object c a =>
    unfold writeProperty
    dsimp only
    split
    next field i _ _ => exact (hpure.refuses v field.ty).andThen fun _ _ _ _ => nofun
    next hnone =>
      have hi : (host.classes.definition c).fieldIndex? name = none := by
        cases hi : (host.classes.definition c).fieldIndex? name with
        | none => rfl
        | some i =>
          obtain ⟨field, hfield⟩ := Option.isSome_iff_exists.mp ((ClassDef.isSome_field? _ name).trans (by rw [hi]; rfl))
          exact (hnone field i hfield hi).elim
      rw [setter?_of_asksSetter hset hi]
      exact .of_ends (.fail _)
  | _ => exact .of_ends (.fail _)

theorem fails_writeIndex : (writeIndex target index v).Fails Eq := by
  have named : ∀ g : String → Fault, (bracketed index >>= fun text => Run.fail (g text) : HeapM Value).Fails Eq :=
    fun g => .bind (.bind (.query _) fun _ => .pure _) fun _ => .of_ends (.fail _)
  cases target with
  | list a | array a => exact .bind .get fun _ => (Run.Fails.of_ends (.ofExcept _)).andThen fun _ _ _ _ => nofun
  | map a => exact (Run.Fails.of_ends (.query _)).andThen fun _ _ _ _ => nofun
  | _ => exact named _

theorem stored_of_writeProperty (host : Host) (hpure : host.converter.Pure) (hset : target.asksSetter host.classes name = false)
    (hon : target.OnHeap host.classes h) (hw : writeProperty host target name v h = .ok w h') (safe : Bool) :
    readProperty host target name safe h' = .ok w h' ∧
      ∃ p, (Segment.property name safe).place? host.classes h target = some p ∧ h.Stored h' p w := by
  have hmeets : (Segment.property name safe).meets host.classes h target = true := by
    cases target with
    | map a => exact hon
    | object c a =>
      cases hi : (host.classes.definition c).fieldIndex? name with
      | some i => simpa [Segment.meets, hi] using hon name i hi
      | none =>
        unfold writeProperty at hw
        dsimp only at hw
        rw [hi, setter?_of_asksSetter hset hi] at hw
        cases hfield : (host.classes.definition c).field? name <;> rw [hfield] at hw <;> cases hw
    | _ => cases hw
  obtain ⟨h₁, p, hp, hext, hat, rfl⟩ := writeProperty_eq_ok host hpure.keeps hmeets hw
  exact ⟨readProperty_eq hp (Heap.at?_put (hext.isSome_at? hat) w), p, hp, hext.stored hat w⟩

theorem stored_of_writeIndex {classes : ClassTable} (hon : target.OnHeap classes h)
    (hw : writeIndex target index v h = .ok w h') (safe : Bool) :
    readIndex target index safe h' = .ok w h' ∧ ∃ p, target.indexed? h index = some p ∧ h.Stored h' p w := by
  have hmeets : (Segment.index default safe).meets classes h target = true := by
    cases target with
    | null | list | array => rfl
    | map a => exact hon
    | _ =>
      obtain ⟨_, _, -, hw⟩ := Run.bind_eq_ok.mp hw
      cases hw
  obtain ⟨p, hp, hat, rfl, hp'⟩ := writeIndex_eq_ok hmeets hw
  exact ⟨readIndex_eq hp' (Heap.at?_put hat w), p, hp, (Heap.Extends.refl h).stored hat w⟩

end Member

theorem Store.fails_assign {c : Converter} (hpure : c.Pure) (slot : SlotId) (v : Value) : (Store.assign c slot v).Fails Eq := by
  refine .bind .get fun st => ?_
  cases (st.binding slot).ty with
  | some ty => exact (Store.fails_onHeap (hpure.refuses v ty)).andThen fun _ _ _ _ => nofun
  | none => exact fun _ _ _ => nofun

/-! ## Assignments -/

section Assignments

variable {ev : Evaluator} {f : Frame} {R : Store → Store → Prop} [IsPreorder Store R] {path : Path} {v : Value}

/-- Machines whose stores are related so. -/
abbrev Machine.Along (R : Store → Store → Prop) : Machine → Machine → Prop := Order.Preimage Machine.store R

/-- Finding the place of a target leaves stores that are related so, however the container is read. -/
def Target.FoundAlong (ev : Evaluator) (f : Frame) (R : Store → Store → Prop) : Target → Prop
  | .name _ => True
  | .path path _ =>
    (Walk.read ev f (Access.container path)).Ends (Machine.Along R) ∧
    (∀ cell, (Access.read ev f (Access.container path) cell).Ends (Machine.Along R)) ∧
    ∀ n safe, path.segments.getLast? = some (.index n safe) → (ev f n).Ends (Machine.Along R)

/-- The names under which a target is written: a bare name, or a property at the end of a path. -/
def Target.Names (name : String) : Target → Prop
  | .name x => x = name
  | .path path _ => path.segments.head? = some (.root name) ∨ ∃ safe, path.segments.getLast? = some (.property name safe)

variable (hpure : f.runtime.converter.Pure)

include hpure

theorem Frame.fails_storeName {name : String} (hset : ∀ r, Value.asksSetter f.world.classes name r = false) (register : Option Nat)
    (insert : Bool) :
    (f.storeName name v register insert).Fails Eq := by
  have receiver : (f.writeReceiver name v insert).Fails Eq := by
    refine .bind .get fun h => ?_
    cases f.writableReceiver? h name with
    | some r => exact (Member.fails_writeProperty f.host hpure (hset r)).andThen fun _ _ _ _ => nofun
    | none =>
      dsimp only
      split <;> exact fun _ _ _ => nofun
  refine .bind .get fun st => ?_
  cases st.resolve? f.scope name with
  | some slot => exact Store.fails_assign hpure slot v
  | none =>
    refine (Store.fails_onHeap receiver).andThen fun found => ?_
    cases found <;> exact fun _ _ _ => nofun

theorem Walk.fails_writeRoot
    (hset : ∀ name, path.segments.head? = some (.root name) → ∀ r, Value.asksSetter f.world.classes name r = false) :
    (Walk.writeRoot f path v).Fails Eq := by
  unfold Walk.writeRoot
  split
  next name _ hroot => exact EvalM.fails_onStore (Frame.fails_storeName hpure (hset name (by rw [hroot]; rfl)) _ _) _
  next => exact .of_ends (.fail _)

theorem Walk.fails_writeLast {target : Value} (hset : ∀ name safe, path.segments.getLast? = some (.property name safe) →
      ∀ r, Value.asksSetter f.world.classes name r = false)
    (hindex : ∀ n safe, path.segments.getLast? = some (.index n safe) → (ev f n).Ends (Machine.Along R)) :
    (Walk.writeLast ev f path target v).Fails (Machine.Along R) := by
  unfold Walk.writeLast
  dsimp only
  split
  next name safe hlast =>
    exact .ite (fun _ _ _ => nofun)
      (.of_eq (EvalM.fails_onHeap (Member.fails_writeProperty f.host hpure (hset name safe hlast target)) _))
  next n safe hlast =>
    exact .ite (fun _ _ _ => nofun) (.bind (hindex n safe hlast) fun _ => .of_eq (EvalM.fails_onHeap Member.fails_writeIndex _))
  next => exact .of_ends (.fail _)

theorem Access.fails_writePath {site : SiteId} (hfound : (Target.path path site).FoundAlong ev f R)
    (hset : ∀ name, (Target.path path site).Names name → ∀ r, Value.asksSetter f.world.classes name r = false) :
    (Access.writePath ev f path site v).Fails (Machine.Along R) := by
  obtain ⟨hwalk, hread, hindex⟩ := hfound
  have root : (Walk.writeRoot f path v).Fails (Machine.Along R) :=
    .of_eq (Walk.fails_writeRoot hpure fun name h => hset name (.inl h))
  have last : ∀ target, (Walk.writeLast ev f path target v).Fails (Machine.Along R) :=
    fun _ => Walk.fails_writeLast hpure (fun name safe h => hset name (.inr ⟨safe, h⟩)) hindex
  have via : ∀ cell, (Access.writeVia ev f path cell v).Fails (Machine.Along R) := by
    intro cell
    cases cell with
    | none => exact root
    | some cell => exact .bind (hread cell) last
  unfold Access.writePath
  refine .ite (.ite (.bind hwalk last) root) (.bind (.bind .get fun _ => .pure _) fun a => ?_)
  cases a.writes.get? site with
  | some cell => exact via cell
  | none =>
    refine .bind ⟨fun {m _ _} h => ?_, fun {m _ _} h => ?_⟩ fun cell => (via cell).andThen fun _ _ _ _ => nofun
    all_goals
      obtain ⟨cell, accel, hnew, -⟩ := Access.newContainerCell_eq ev f f.runtime.config.optimizer path m
      cases hnew.symm.trans h
    exact refl_of R m.store

variable {target : Target} (hfound : target.FoundAlong ev f R)
  (hset : ∀ name, target.Names name → ∀ r, Value.asksSetter f.world.classes name r = false)

include hfound hset

theorem Eval.fails_writeTarget (info : Info) (register : Option Nat) :
    (Eval.writeTarget ev f info register v target).Fails (Machine.Along R) := by
  cases target with
  | name name => exact .of_eq (EvalM.fails_onStore (Frame.fails_storeName hpure (hset name rfl) register false) _)
  | path path site => exact Access.fails_writePath hpure hfound hset

theorem Eval.fails_assignment (info : Info) (op : Option Operator) (value : Option Node)
    (hread : op.isSome = true → (Eval.readTarget ev f info target).Ends (Machine.Along R))
    (hvalue : ∀ n, value = some n → (ev f n).Ends (Machine.Along R)) (decl : Option Ty) (register : Option Nat) :
    (Eval.assignment ev f info target op value decl register).Fails (Machine.Along R) := by
  have write : ∀ v, (Eval.writeTarget ev f info register v target).Fails (Machine.Along R) :=
    fun _ => Eval.fails_writeTarget hpure hfound hset info register
  have assign : (Eval.assign ev f info target op value register).Fails (Machine.Along R) := by
    cases value with
    | none => cases op <;> exact write .null
    | some n =>
      cases op with
      | none => exact .bind (hvalue n rfl) write
      | some op =>
        refine .bind (hread rfl) fun current => .bind (hvalue n rfl) fun rhs => ?_
        exact .bind (.of_eq (EvalM.ends_onHeap (op.reads_apply current rhs) _)) write
  unfold Eval.assignment
  split
  next ty name =>
    have convert : ∀ v ty, (EvalM.onHeap (f.errorIn info) (f.runtime.converter.convert v ty)).Fails (Machine.Along R) :=
      fun v ty => .of_eq (EvalM.fails_onHeap (hpure.refuses v ty) _)
    unfold Eval.declare
    cases ty.known? with
    | some ty =>
      cases value with
      | some n => exact .bind (hvalue n rfl) fun v => (convert v ty).andThen fun _ _ _ _ => nofun
      | none => exact (convert _ ty).andThen fun _ _ _ _ => nofun
    | none =>
      cases value with
      | some n => exact .bind (hvalue n rfl) fun _ _ _ _ => nofun
      | none => exact fun _ _ _ => nofun
  next => exact assign

theorem Eval.fails_increment (info : Info) (hread : (Eval.readTarget ev f info target).Ends (Machine.Along R)) (delta : Int64)
    (before : Bool) :
    (Eval.increment ev f info target delta before).Fails (Machine.Along R) := by
  refine .bind hread fun current => .bind (.of_eq (EvalM.ends_onHeap (Operator.reads_apply .add _ _) _)) fun next => ?_
  exact (Eval.fails_writeTarget hpure hfound hset info none).andThen fun _ _ _ _ => nofun

end Assignments

open Member in
/-- Writes are done whole or not at all, under a pure converter and where no setter is asked.

A write to a property, an index or a binding that fails leaves the heap and all bindings as they were. One that gives a
value has stored that value at one place, or in one binding: it is read there from then on, and all that was anywhere
else is there still. A conversion may have made new containers beside. An index that shows the map it is to be written to
has no text while the map is held, and such a write does not end.

An assignment, a declaration or an increment that fails has evaluated parts of it, and no more: what evaluating its
operands and finding its target keep of the stores, it keeps. -/
theorem writes_whole_or_not_at_all (f : Frame) (hpure : f.runtime.converter.Pure) :
    (∀ target name v, target.asksSetter f.world.classes name = false → (writeProperty f.host target name v).Fails Eq ∧
      ∀ h w h', target.OnHeap f.world.classes h → writeProperty f.host target name v h = .ok w h' → ∀ safe,
        readProperty f.host target name safe h' = .ok w h' ∧
        ∃ p, (Segment.property name safe).place? f.world.classes h target = some p ∧ h.Stored h' p w) ∧
    (∀ target index v, (writeIndex target index v).Fails Eq ∧
      ∀ h w h', target.OnHeap f.world.classes h → writeIndex target index v h = .ok w h' → ∀ safe,
        readIndex target index safe h' = .ok w h' ∧ ∃ p, target.indexed? h index = some p ∧ h.Stored h' p w) ∧
    (∀ slot v, (Store.assign f.runtime.converter slot v).Fails Eq ∧
      ∀ st w st', slot < st.slots.size → Store.assign f.runtime.converter slot v st = .ok w st' →
        st.Rewritten st' slot w ∧ st.heap.Extends st'.heap) ∧
    (∀ (R : Store → Store → Prop) [IsPreorder Store R] ev info target, Target.FoundAlong ev f R target →
      (∀ name, target.Names name → ∀ r, Value.asksSetter f.world.classes name r = false) → (∀ op value decl register,
        (op.isSome = true → (Eval.readTarget ev f info target).Ends (Machine.Along R)) →
        (∀ n, value = some n → (ev f n).Ends (Machine.Along R)) →
        (Eval.assignment ev f info target op value decl register).Fails (Machine.Along R)) ∧
      ∀ delta before, (Eval.readTarget ev f info target).Ends (Machine.Along R) →
        (Eval.increment ev f info target delta before).Fails (Machine.Along R)) := by
  refine ⟨fun target name v hset => ⟨fails_writeProperty f.host hpure hset, fun h w h' hon hw => ?_⟩,
    fun target index v => ⟨fails_writeIndex, fun h w h' => stored_of_writeIndex⟩,
    fun slot v => ⟨Store.fails_assign hpure slot v, fun st w st' hslot hw => ?_⟩,
    fun R _ ev info target hfound hset => ⟨fun op value decl register hread hvalue => ?_, fun delta before hread => ?_⟩⟩
  · exact stored_of_writeProperty f.host hpure hset hon hw
  · obtain ⟨heap, hstores, rfl⟩ := Store.assign_eq_ok hw
    exact ⟨Store.rewritten_withValue hslot heap w, hstores.extends hpure.keeps⟩
  · exact Eval.fails_assignment hpure hfound hset info op value hread hvalue decl register
  · exact Eval.fails_increment hpure hfound hset info hread delta before

/-- A map that is written under the text of a list, an index that is out of bounds, and a text for a variable of type
`int`, which an assignment refuses. -/
theorem writes_whole_or_not_at_all_typed :
    let f : Frame := { Frame.nested .local with scope := [0] }
    let h : Heap := ((Heap.empty.newMap .empty).2.newList #[.int 7]).2
    let st : Store := ((Variables.new .empty).2.createIn [0] "x" ⟨.int 1, some .int⟩ none).2
    let n : Node := ⟨⟨⟨4, 7⟩, .str, none⟩, .literal (.str "a")⟩
    f.runtime.converter.Pure ∧
    (∃ h', Member.writeIndex (.map 0) (.list 0) (.int 5) h = .ok (.int 5) h' ∧
      Member.readIndex (.map 0) (.list 0) false h' = .ok (.int 5) h') ∧
    (∃ e h', Member.writeIndex (.list 0) (.int 1) .null h = .error e h' ∧ h = h') ∧
    (∃ e st', Store.assign f.runtime.converter 0 (.str "a") st = .error e st' ∧ st = st') ∧
    ∃ e m', Eval.assignment (fun _ _ => pure (.str "a")) f ⟨⟨0, 7⟩, .int, none⟩ (.name "x") none (some n) none none
      { Machine.start 0 with store := st } = .error e m' ∧ st = m'.store := by
  intro f h st n
  have hpure : f.runtime.converter.Pure := ConversionRegistry.pure (r := .empty) nofun
  have hset : ∀ r, Value.asksSetter f.world.classes "x" r = false := by
    intro r
    cases r with
    | object c a =>
      have hnone : ((f.world.classes.definition c).setter? "x").isNone = true := by
        unfold ClassTable.definition
        split
        · rfl
        next i _ =>
          have hbuiltin : builtinClasses.all (fun c => (c.setter? "x").isNone) = true := by decide +kernel
          split
          next hi =>
            rw [Array.getElem?_eq_getElem hi]
            exact Array.all_eq_true.mp hbuiltin i hi
          next => rfl
      simp [Value.asksSetter, Option.isNone_iff_eq_none.mp hnone]
    | _ => rfl
  obtain ⟨-, hindex, hbinding, hassign⟩ := writes_whole_or_not_at_all f hpure
  have hmap : (Member.writeIndex (.map 0) (.list 0) (.int 5) h).okAnd (fun w _ => decide (w = .int 5)) = true := by
    decide +kernel
  obtain ⟨w, h', hw, hvalue⟩ := Outcome.okAnd_iff.mp hmap
  cases of_decide_eq_true hvalue
  have fails : ∀ {σ ε α : Type} {o : Outcome σ ε α}, o.errorAnd (fun _ _ => true) = true → ∃ e s, o = .error e s :=
    fun ho => (Outcome.errorAnd_iff.mp ho).imp fun _ => .imp fun _ => And.left
  obtain ⟨e₁, h₁, hbounds⟩ := fails (o := Member.writeIndex (.list 0) (.int 1) .null h) (by decide +kernel)
  obtain ⟨e₂, st₂, htyped⟩ := fails (o := Store.assign f.runtime.converter 0 (.str "a") st) (by decide +kernel)
  obtain ⟨e₃, m₃, hrefused⟩ := fails (o := Eval.assignment (fun _ _ => pure (.str "a")) f ⟨⟨0, 7⟩, .int, none⟩ (.name "x")
    none (some n) none none { Machine.start 0 with store := st }) (by decide +kernel)
  refine ⟨hpure, ⟨h', hw, ((hindex (.map 0) _ _).2 h _ h' rfl hw false).1⟩, ⟨e₁, h₁, hbounds, (hindex _ _ _).1 _ _ _ hbounds⟩,
    ⟨e₂, st₂, htyped, (hbinding _ _).1 _ _ _ htyped⟩, e₃, m₃, hrefused, ?_⟩
  refine (hassign Eq _ _ (.name "x") trivial (fun name hname => hname ▸ hset)).1 none (some n) none none nofun ?_ _ _ _ hrefused
  exact fun _ _ => .pure _

end PathScript
