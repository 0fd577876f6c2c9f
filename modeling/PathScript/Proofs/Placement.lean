import Mathlib.Data.List.TakeWhile
import PathScript.Proofs.Member
import PathScript.Proofs.Visible

/-! # The placement of assigned names

An assignment to a bare name changes one location: the innermost binding of the
name, else an entry or a field of `this` or of the context, else a new binding.
-/

namespace PathScript

/-! ## A place on the heap -/

namespace Heap

variable {h h' : Heap} {p q : Place} {v w : Value}

/-- The heap with another value at one place; beside that there may be new containers. -/
structure Replaced (h h' : Heap) (p : Place) (w : Value) : Prop where
  others : ∀ q u, p ≠ q → h.at? q = some u → h'.at? q = some u
  written : (h.at? p).isSome = true → h'.at? p = some w

theorem Extends.replaced (hext : h.Extends h') (p : Place) (w : Value) : h.Replaced (h'.put w p) p w where
  others q u hne hu := by
    rw [at?_put_of_ne hne]
    exact hext.at?_eq hu
  written hp := at?_put (hext.isSome_at? hp) w

end Heap

theorem Converter.Stores.extends {c : Converter} {ty : Option Ty} {v w : Value} {h h' : Heap}
    (hs : c.Stores ty v h w h') (hkeeps : c.Keeps) : h.Extends h' := by
  cases ty with
  | some ty => exact hkeeps hs
  | none =>
    obtain ⟨-, rfl⟩ := hs
    exact .refl h'

/-! ## Receivers -/

namespace Value

variable (classes : ClassTable) (name : String)

/-- Whether a value is of a class with a setter for a name. -/
def hasSetter : Value → Bool
  | object c _ => ((classes.definition c).setter? name).isSome
  | _ => false

/-- The declared type of the place that a name stands for. -/
def namedType? : Value → Option Ty
  | object c _ => ((classes.definition c).field? name).map (·.ty)
  | _ => none

end Value

namespace Member

variable (host : Host) {h h' : Heap} {r v w : Value} {name : String} {p : Place}

theorem isWritable_eq (hset : r.hasSetter host.classes name = false) :
    isWritable host h r name = (r.named? host.classes h name).isSome := by
  cases r with
  | map a =>
    rw [isWritable, Value.named?]
    cases (h.map a).contains name <;> rfl
  | object c a =>
    have hset : ((host.classes.definition c).setter? name).isSome = false := hset
    rw [isWritable, Value.named?, Option.isSome_map, hset, Bool.or_false, ClassDef.isSome_field?]
  | _ => rfl

theorem stores_of_writeProperty (hp : r.named? host.classes h name = some p)
    (hw : writeProperty host r name v h = .ok w h') :
    ∃ h₁, host.converter.Stores (r.namedType? host.classes name) v h w h₁ ∧ h' = h₁.put w p := by
  cases r with
  | map a =>
    rw [Value.named?] at hp
    split at hp
    next =>
      cases hp
      cases hw
      exact ⟨h, ⟨rfl, rfl⟩, rfl⟩
    next => cases hp
  | object c a =>
    obtain ⟨i, hi, rfl⟩ := Option.map_eq_some_iff.mp hp
    obtain ⟨field, h₁, hfield, hconvert, rfl⟩ := writeField_eq_ok hi hw
    refine ⟨h₁, ?_, rfl⟩
    rw [Value.namedType?, hfield]
    exact hconvert
  | _ => cases hp

end Member

namespace Frame

/-- The first of `this` and the context that has a name. -/
def owner? (f : Frame) (h : Heap) (name : String) : Option Value :=
  f.receivers.find? fun r => (r.named? f.world.classes h name).isSome

/-- The scope for a name that nothing has: the innermost one, at top level the variables of the caller; or, if names are
promoted, the registers of the nearest call or the variables of the caller. -/
def newIn? (f : Frame) (st : Store) : Option ScopeId :=
  match f.runtime.config.blockScoping with
  | .local => f.innermost?
  | .promote => f.scope.find? fun id => (st.scope id).kind == .global || (st.scope id).kind == .indexed

variable {f : Frame} {st : Store} {h h' : Heap} {name : String} {v : Value}

theorem writableReceiver?_eq_owner? (hset : ∀ r ∈ f.receivers, r.hasSetter f.world.classes name = false) :
    f.writableReceiver? h name = f.owner? h name := by
  have hwritable : ∀ r ∈ f.receivers, Member.isWritable f.host h r name = (r.named? f.world.classes h name).isSome :=
    fun r hr => Member.isWritable_eq f.host (hset r hr)
  have hthis := hwritable f.this (by simp [receivers])
  have hctx := hwritable f.ctx (by simp [receivers])
  simp only [writableReceiver?, owner?, receivers, List.find?_cons, List.find?_nil, hthis, hctx]

/-- A name that a frame creates goes to the scope for it, which is one of the frame's. -/
theorem FormedIn.creationScope_bindingChain (hf : f.FormedIn st) :
    ∃ id, f.newIn? st = some id ∧ st.creationScope (f.bindingChain st) = some id ∧ id ∈ f.scope := by
  cases hscoping : f.runtime.config.blockScoping with
  | «local» =>
    obtain ⟨id, hinnermost, hscope⟩ := hf.creationScope_eq
    simp only [newIn?, bindingChain, hscoping]
    exact ⟨id, hinnermost, hscope, List.mem_of_find?_eq_some hscope⟩
  | promote =>
    obtain ⟨imports, vars, hroot, -, hvars⟩ := hf.frame.root
    have hmem : vars ∈ f.scope := hf.frame.scope.root_mem (by simp [hroot])
    have htarget : (st.scope vars).isTarget = true := by
      rw [Scope.isTarget, show (st.scope vars).kind = .global from hvars]
      rfl
    have hfound : (f.scope.find? fun id => (st.scope id).isTarget).isSome = true :=
      List.find?_isSome.mpr ⟨vars, hmem, htarget⟩
    obtain ⟨id, hid⟩ := Option.isSome_iff_exists.mp hfound
    simp only [newIn?, bindingChain, hscoping]
    refine ⟨id, hid, ?_, List.mem_of_find?_eq_some hid⟩
    have hhead : (f.scope.dropWhile fun id => !(st.scope id).isTarget).head? = some id := by
      rw [← List.find?_eq_head?_dropWhile_not]
      exact hid
    obtain ⟨rest, hrest⟩ := List.head?_eq_some_iff.mp hhead
    have hkind : (st.scope id).kind ≠ .imports := fun heq => by
      have hid : (st.scope id).isTarget = true := List.find?_some (p := fun id => (st.scope id).isTarget) hid
      rw [Scope.isTarget, heq] at hid
      cases hid
    rw [Store.nearestTarget, hrest]
    exact List.find?_cons_of_pos (by simpa using hkind)

theorem kind_of_newIn? {id : ScopeId} (hnew : f.newIn? st = some id) (hpromote : f.runtime.config.blockScoping = .promote) :
    (st.scope id).kind = .global ∨ (st.scope id).kind = .indexed := by
  simp only [newIn?, hpromote] at hnew
  simpa using List.find?_some hnew

/-- A name that is written on a receiver is stored at its place; one that no receiver has is not. -/
theorem stores_of_writeReceiver (hset : ∀ r ∈ f.receivers, r.hasSetter f.world.classes name = false) {found : Option Value}
    (hw : f.writeReceiver name v false h = .ok found h') :
    (∃ w r p h₁, found = some w ∧ f.owner? h name = some r ∧ r.named? f.world.classes h name = some p ∧
      f.runtime.converter.Stores (r.namedType? f.world.classes name) v h w h₁ ∧ h' = h₁.put w p) ∨
    (found = none ∧ f.owner? h name = none ∧ h' = h) := by
  unfold writeReceiver at hw
  rw [Run.get_bind, writableReceiver?_eq_owner? hset] at hw
  cases howner : f.owner? h name with
  | some r =>
    rw [howner] at hw
    obtain ⟨w, h₂, hwrite, hfound⟩ := Run.bind_eq_ok.mp hw
    cases hfound
    have hnamed := List.find?_some (p := fun r : Value => (r.named? f.world.classes h name).isSome) howner
    obtain ⟨p, hp⟩ := Option.isSome_iff_exists.mp hnamed
    obtain ⟨h₁, hstores, hput⟩ := Member.stores_of_writeProperty f.host hp hwrite
    exact .inl ⟨w, r, p, h₁, rfl, rfl, hp, hstores, hput⟩
  | none =>
    rw [howner] at hw
    cases hw
    exact .inr ⟨rfl, rfl, rfl⟩

end Frame

/-! ## Assignments -/

/-- The store with another value in one slot; the slot has its type still. -/
structure Store.Rewritten (st st' : Store) (slot : SlotId) (w : Value) : Prop where
  scopes : st'.scopes = st.scopes
  size : st'.slots.size = st.slots.size
  binding : st'.binding slot = ⟨w, (st.binding slot).ty⟩
  bindings : ∀ other, slot ≠ other → st'.binding other = st.binding other

namespace Store

variable {st : Store} {slot : SlotId} {chain : Chain} {name : String}

theorem rewritten_withValue (hslot : slot < st.slots.size) (heap : Heap) (w : Value) :
    st.Rewritten ({ st with heap }.withValue slot w) slot w where
  scopes := rfl
  size := Table.size_update ..
  binding := (binding_withValue slot w).trans (if_pos hslot)
  bindings _ hne := binding_withValue_ne hne w

theorem Sound.resolve?_lt (h : st.Sound) (hslot : st.resolve? chain name = some slot) : slot < st.slots.size := by
  obtain ⟨id, -, hlocal⟩ := List.exists_of_findSome?_eq_some hslot
  exact h.inBounds id slot (Scope.mem_slots_of_local? hlocal)

end Store

namespace Frame

variable {f : Frame} {st st' : Store} {name : String} {v w : Value} {register : Option Nat}

/-- What storing under a name can do, where no setter is asked for it. -/
theorem storeName_cases (hset : ∀ r ∈ f.receivers, r.hasSetter f.world.classes name = false)
    (hw : f.storeName name v register false st = .ok w st') : (∃ slot heap, st.resolve? f.scope name = some slot ∧
      f.runtime.converter.Stores (st.binding slot).ty v st.heap w heap ∧ st' = { st with heap }.withValue slot w) ∨
    (∃ r p h, st.resolve? f.scope name = none ∧ f.owner? st.heap name = some r ∧
      r.named? f.world.classes st.heap name = some p ∧
      f.runtime.converter.Stores (r.namedType? f.world.classes name) v st.heap w h ∧
      st' = { st with heap := h.put w p }) ∨ (st.resolve? f.scope name = none ∧ f.owner? st.heap name = none ∧ w = v ∧
      st' = (st.createIn (f.bindingChain st) name ⟨v, none⟩ register).2) := by
  rw [storeName, Run.get_bind] at hw
  cases hresolve : st.resolve? f.scope name with
  | some slot =>
    rw [hresolve] at hw
    obtain ⟨heap, hstores, rfl⟩ := Store.assign_eq_ok hw
    exact .inl ⟨slot, heap, rfl, hstores, rfl⟩
  | none =>
    rw [hresolve] at hw
    obtain ⟨found, st₁, hfound, hrest⟩ := Run.bind_eq_ok.mp hw
    obtain ⟨heap, hreceiver, rfl⟩ := Store.onHeap_eq_ok.mp hfound
    obtain ⟨w', r, p, h, rfl, howner, hp, hstores, rfl⟩ | ⟨rfl, howner, rfl⟩ := stores_of_writeReceiver hset hreceiver
    · cases hrest
      exact .inr (.inl ⟨r, p, h, rfl, howner, hp, hstores, rfl⟩)
    · cases hrest
      exact .inr (.inr ⟨rfl, howner, rfl, rfl⟩)

/-- An assignment to a name changes one location, where no setter is asked for it.

If a scope has the name, the innermost such binding takes the value, converted to its type, and is found by the name from
then on. Else, if `this` or the context has the name, the place of the first of them that has it takes the value,
converted to the type of the place. Else there is one new binding, without a type: in the innermost scope, at top level in
the variables of the caller; or, where names are promoted, in the registers of the nearest call or in the variables of the
caller. It is never among the imports, and it is found by the name.

The heap is as the conversion leaves it, and a conversion makes new containers at most, if those of the host do. -/
theorem assigned_name_placed (hf : f.FormedIn st) (hset : ∀ r ∈ f.receivers, r.hasSetter f.world.classes name = false)
    (hw : f.storeName name v register false st = .ok w st') : (∀ slot, st.resolve? f.scope name = some slot →
      st.Rewritten st' slot w ∧ st'.lookup? f.scope name = some w ∧
      f.runtime.converter.Stores (st.binding slot).ty v st.heap w st'.heap ∧
      (f.runtime.converter.Keeps → st.heap.Extends st'.heap)) ∧
    (st.resolve? f.scope name = none → ∀ r, f.owner? st.heap name = some r →
      ∃ p, r.named? f.world.classes st.heap name = some p ∧ st'.scopes = st.scopes ∧ st'.slots = st.slots ∧
      (∃ h, f.runtime.converter.Stores (r.namedType? f.world.classes name) v st.heap w h ∧ st'.heap = h.put w p) ∧
      (f.runtime.converter.Keeps → st.heap.Replaced st'.heap p w)) ∧
    (st.resolve? f.scope name = none → f.owner? st.heap name = none →
      ∃ id, f.newIn? st = some id ∧ st.Created st' id name ⟨v, none⟩ ∧ w = v ∧ st'.lookup? f.scope name = some w ∧
      (st.scope id).kind ≠ .imports ∧
      (f.runtime.config.blockScoping = .promote → (st.scope id).kind = .global ∨ (st.scope id).kind = .indexed)) := by
  obtain ⟨slot, heap, hresolve, hstores, rfl⟩ | ⟨r, p, h, hresolve, howner, hp, hstores, rfl⟩ |
    ⟨hresolve, howner, rfl, rfl⟩ := storeName_cases hset hw
  · refine ⟨fun slot' hslot => ?_, fun hnone => ?_, fun hnone => ?_⟩
    · cases hresolve.symm.trans hslot
      have hrewritten := Store.rewritten_withValue (hf.store.resolve?_lt hresolve) heap w
      have hfound : ({ st with heap }.withValue slot w).resolve? f.scope name = some slot := hresolve
      refine ⟨hrewritten, ?_, hstores, hstores.extends⟩
      rw [Store.lookup?, hfound, Option.map_some, Store.value, hrewritten.binding]
    all_goals cases hresolve.symm.trans hnone
  · refine ⟨fun slot hslot => ?_, fun _ r' hr' => ?_, fun _ hnone => ?_⟩
    · cases hresolve.symm.trans hslot
    · cases howner.symm.trans hr'
      exact ⟨p, hp, rfl, rfl, ⟨h, hstores, rfl⟩, fun hkeeps => (hstores.extends hkeeps).replaced p w⟩
    · cases howner.symm.trans hnone
  · refine ⟨fun slot hslot => ?_, fun _ r hr => ?_, fun _ _ => ?_⟩
    · cases hresolve.symm.trans hslot
    · cases howner.symm.trans hr
    · obtain ⟨id, hnew, hscope, hid⟩ := hf.creationScope_bindingChain
      have hcreated := hf.created hscope hid name ⟨w, none⟩ register
      have hfound := hcreated.lookup?_eq (hcreated.resolve?_of_none hid hresolve)
      exact ⟨id, hnew, hcreated, rfl, hfound, Store.kind_of_creationScope hscope, kind_of_newIn? hnew⟩

/-- In the body of a loop that a function runs, with a map for a context: a name that the call has, a key of the map, and a
name that nothing has, which goes to the registers of the call, past the scope of the loop. -/
theorem assigned_name_placed_in_loop :
    let f : Frame := { nested .promote with ctx := .map 0 }
    let st : Store := { Store.nested with heap := (Heap.empty.newMap (.ofList [("k", .int 1)])).2 }
    f.FormedIn st ∧ (∀ name, ∀ r ∈ f.receivers, r.hasSetter f.world.classes name = false) ∧
    (∃ st', f.storeName "x" (.int 7) none false st = .ok (.int 7) st' ∧
      st.local? 2 "x" = some 2 ∧ st.Rewritten st' 2 (.int 7)) ∧
    (∃ st', f.storeName "k" (.int 8) none false st = .ok (.int 8) st' ∧ st'.scopes = st.scopes ∧ st'.slots = st.slots ∧
      st'.heap = st.heap.put (.int 8) (.entry 0 "k")) ∧
    ∃ st', f.storeName "y" (.int 9) (some 0) false st = .ok (.int 9) st' ∧ st.Created st' 2 "y" ⟨.int 9, none⟩ ∧
      st'.lookup? f.scope "y" = some (.int 9) := by
  intro f st
  have hnested := Frame.nested_formedIn .promote
  have hformed : f.FormedIn st :=
    ⟨⟨hnested.store.inBounds, hnested.store.apart⟩, ⟨hnested.frame.inBounds, hnested.frame.root, hnested.frame.scope⟩⟩
  have hset : ∀ name, ∀ r ∈ f.receivers, r.hasSetter f.world.classes name = false := by
    intro name r hr
    rcases List.mem_cons.mp hr with rfl | hr
    · rfl
    · rw [List.mem_singleton.mp hr]
      rfl
  have stored : ∀ name v register, (f.storeName name v register false st).okAnd (fun w _ => decide (w = v)) = true →
      ∃ st', f.storeName name v register false st = .ok v st' := fun name v register h => by
    obtain ⟨w, st', hw, h⟩ := Outcome.okAnd_iff.mp h
    cases of_decide_eq_true h
    exact ⟨st', hw⟩
  obtain ⟨st₁, hx⟩ := stored "x" (.int 7) none (by decide +kernel)
  obtain ⟨st₂, hk⟩ := stored "k" (.int 8) none (by decide +kernel)
  obtain ⟨st₃, hy⟩ := stored "y" (.int 9) (some 0) (by decide +kernel)
  obtain ⟨hbound, -, -⟩ := assigned_name_placed hformed (hset "x") hx
  obtain ⟨-, howned, -⟩ := assigned_name_placed hformed (hset "k") hk
  obtain ⟨-, -, hnew⟩ := assigned_name_placed hformed (hset "y") hy
  obtain ⟨hrewritten, -⟩ := hbound 2 (by decide +kernel)
  obtain ⟨p, hp, hscopes, hslots, ⟨h, ⟨-, rfl⟩, hheap⟩, -⟩ := howned (by decide +kernel) (.map 0) (by decide +kernel)
  obtain rfl : p = .entry 0 "k" := by
    have hentry : (Value.map 0).named? f.world.classes st.heap "k" = some (.entry 0 "k") := by decide +kernel
    exact Option.some.inj (hp.symm.trans hentry)
  obtain ⟨id, hid, hcreated, -, hfound, -⟩ := hnew (by decide +kernel) (by decide +kernel)
  obtain rfl : id = 2 := by
    have htwo : f.newIn? st = some 2 := by decide +kernel
    exact Option.some.inj (hid.symm.trans htwo)
  exact ⟨hformed, hset, ⟨st₁, hx, by decide +kernel, hrewritten⟩, ⟨st₂, hk, hscopes, hslots, hheap⟩,
    st₃, hy, hcreated, hfound⟩

end Frame

end PathScript
