import Mathlib.Data.List.Find
import Mathlib.Data.List.Forall2
import Mathlib.Data.List.TakeWhile
import PathScript.Proofs.Sound

/-! # Isolation of calls

The body of a function sees its own scopes and those of the whole evaluation,
its *root*. Everything else in the store is hidden from it. Two calls that
differ in what is hidden are evaluated side by side: what is seen stays the
same on both sides, and what is hidden is not touched. -/

namespace PathScript

/-! ## What a call can see -/

/-- Stores that are the same for what has only some scopes: these scopes, the slots they refer to, and the heap. -/
structure Store.AgreeOn (root : Chain) (st st' : Store) : Prop where
  heap : st'.heap = st.heap
  scopes : st'.scopes.size = st.scopes.size
  slots : st'.slots.size = st.slots.size
  scope : ∀ id ∈ root, st'.scope id = st.scope id
  binding : ∀ id ∈ root, ∀ slot ∈ (st.scope id).slots, st'.binding slot = st.binding slot

/-- Events that tell the same. -/
structure StepEvent.Alike (e e' : StepEvent) : Prop where
  sourceName : e'.sourceName = e.sourceName
  line : e'.line = e.line
  scope : e'.scope = e.scope
  heap : e'.store.heap = e.store.heap
  lookup : ∀ name, e'.lookup? name = e.lookup? name

/-- Machines that are the same for what has only some scopes, pending returns apart. -/
structure Machine.AgreeOn (root : Chain) (m m' : Machine) : Prop where
  store : m.store.AgreeOn root m'.store
  accel : m'.accel = m.accel
  events : List.Forall₂ StepEvent.Alike m.events m'.events

/-- Endings with the same value or error, or both without, that leave machines which agree. -/
inductive Outcome.AgreeOn (root : Chain) {α : Type} : Outcome Machine EvalError α → Outcome Machine EvalError α → Prop where
  | ok (a : α) {m m' : Machine} (agree : m.AgreeOn root m') : AgreeOn root (.ok a m) (.ok a m')
  | error (e : EvalError) {m m' : Machine} (agree : m.AgreeOn root m') : AgreeOn root (.error e m) (.error e m')
  | diverged : AgreeOn root .diverged .diverged

namespace Isolation

/-- Scopes that a call can see: those of the root, and new ones. -/
def Seen (l : Store) (root : Chain) (id : ScopeId) : Prop := id ∈ root ∨ l.scopes.size ≤ id

/-- Slots that a call can see: those of scopes of the root, and new ones. -/
def SeenSlot (l : Store) (root : Chain) (slot : SlotId) : Prop :=
  l.slots.size ≤ slot ∨ ∃ id ∈ root, slot ∈ (l.scope id).slots

/-- Stores during two calls, the first of which started with the store `l`. They are the same in what is seen, and in
the first of them what is hidden is as it was at the start. `kinds` are the kinds of the scopes that are new. -/
structure Apart (l : Store) (root : Chain) (kinds : List ScopeKind) (st st' : Store) : Prop where
  heap : st'.heap = st.heap
  size : st.scopes.size = l.scopes.size + kinds.length
  sizes : st'.scopes.size = st.scopes.size
  slots : st'.slots.size = st.slots.size
  grown : l.slots.size ≤ st.slots.size
  kind : ∀ k kind, kinds[k]? = some kind → (st.scope (l.scopes.size + k)).kind = kind
  scope : ∀ id, Seen l root id → st'.scope id = st.scope id
  binding : ∀ slot, SeenSlot l root slot → st'.binding slot = st.binding slot
  reach : ∀ id, Seen l root id → ∀ slot ∈ (st.scope id).slots, SeenSlot l root slot
  hidden : ∀ id, ¬Seen l root id → st.scope id = l.scope id
  hiddenSlot : ∀ slot, ¬SeenSlot l root slot → st.binding slot = l.binding slot
  rootKind : ∀ id ∈ root, (st.scope id).kind = (l.scope id).kind
  /-- Of the scopes of the root, only those of imports change. -/
  root : ∀ id ∈ root, (l.scope id).kind ≠ .imports → st.scope id = l.scope id

variable {l st st' : Store} {root chain : Chain} {kinds : List ScopeKind} {b : Binding}

namespace Apart

theorem start (h : l.AgreeOn root st') : Apart l root [] l st' where
  heap := h.heap
  size := rfl
  sizes := h.scopes
  slots := h.slots
  grown := Nat.le_refl _
  kind := nofun
  scope := by
    rintro id (hid | hid)
    · exact h.scope id hid
    · rw [Store.scope_eq_default hid, Store.scope_eq_default (h.scopes ▸ hid)]
  binding := by
    rintro slot (hslot | ⟨id, hid, hslot⟩)
    · rw [Store.binding_eq_default hslot, Store.binding_eq_default (h.slots ▸ hslot)]
    · exact h.binding id hid slot hslot
  reach := by
    rintro id (hid | hid) slot hslot
    · exact .inr ⟨id, hid, hslot⟩
    · rw [Store.scope_eq_default hid] at hslot
      cases hslot
  hidden := fun _ _ => rfl
  hiddenSlot := fun _ _ => rfl
  rootKind := fun _ _ => rfl
  root := fun _ _ _ => rfl

theorem agreeOn (h : Apart l root kinds st st') : st.AgreeOn root st' where
  heap := h.heap
  scopes := h.sizes
  slots := h.slots
  scope := fun id hid => h.scope id (.inl hid)
  binding := fun id hid slot hslot => h.binding slot (h.reach id (.inl hid) slot hslot)

/-! ### Looking at scopes -/

section Chains

variable (h : Apart l root kinds st st') (hchain : ∀ id ∈ chain, Seen l root id)
include h hchain

theorem resolve (name : String) : st'.resolve? chain name = st.resolve? chain name := by
  induction chain with
  | nil => rfl
  | cons id rest ih =>
    have hrest := ih fun id hid => hchain id (List.mem_cons_of_mem _ hid)
    simp only [Store.resolve?, Store.local?, List.findSome?_cons] at hrest ⊢
    rw [h.scope id (hchain id List.mem_cons_self), hrest]

theorem seenSlot_of_resolve {name : String} {slot : SlotId} (hslot : st.resolve? chain name = some slot) :
    SeenSlot l root slot := by
  obtain ⟨id, hid, hlocal⟩ := List.exists_of_findSome?_eq_some hslot
  exact h.reach id (hchain id hid) slot (Scope.mem_slots_of_local? hlocal)

theorem lookup (name : String) : st'.lookup? chain name = st.lookup? chain name := by
  simp only [Store.lookup?, h.resolve hchain]
  cases hslot : st.resolve? chain name with
  | none => rfl
  | some slot => simp only [Option.map_some, Store.value, h.binding slot (h.seenSlot_of_resolve hchain hslot)]

theorem kindOf : st'.kindOf chain = st.kindOf chain := by
  cases chain with
  | nil => rfl
  | cons id rest =>
    have hid := h.scope id (hchain id List.mem_cons_self)
    simp only [Store.kindOf, List.head?_cons, Option.map_some, hid]

theorem creationScope : st'.creationScope chain = st.creationScope chain :=
  List.find?_congr fun id hid => by rw [h.scope id (hchain id hid)]

theorem importScope : st'.importScope chain = st.importScope chain :=
  List.find?_congr fun id hid => by rw [h.scope id (hchain id hid)]

theorem nearestTarget : st'.nearestTarget chain = st.nearestTarget chain := by
  have hdrop : chain.dropWhile (fun id => !(st'.scope id).isTarget) = chain.dropWhile fun id => !(st.scope id).isTarget := by
    induction chain with
    | nil => rfl
    | cons id rest ih =>
      have hrest := ih fun id hid => hchain id (List.mem_cons_of_mem _ hid)
      simp only [List.dropWhile_cons, h.scope id (hchain id List.mem_cons_self), hrest]
  simp only [Store.nearestTarget, hdrop]

end Chains

/-! ### Changes -/

variable (h : Apart l root kinds st st')
include h

theorem withHeap (heap : Heap) :
    Apart l root kinds { st with heap } { st' with heap } :=
  { h with heap := rfl }

theorem newSlot (b : Binding) : Apart l root kinds (st.newSlot b).2 (st'.newSlot b).2 :=
  { h with
    slots := by
      show (st'.slots.alloc b).2.size = (st.slots.alloc b).2.size
      rw [Table.size_alloc, Table.size_alloc, h.slots]
    grown := by
      show l.slots.size ≤ (st.slots.alloc b).2.size
      rw [Table.size_alloc]
      exact Nat.le_succ_of_le h.grown
    binding := fun slot hslot => by rw [Store.binding_newSlot, Store.binding_newSlot, h.slots, h.binding slot hslot]
    hiddenSlot := fun slot hslot => by
      have hne : slot ≠ st.slots.size := fun heq => hslot (.inl (heq ▸ h.grown))
      rw [Store.binding_newSlot, if_neg hne, h.hiddenSlot slot hslot] }

theorem bound (hroot : ∀ id ∈ root, id < l.scopes.size) {id : ScopeId}
    (hid : l.scopes.size ≤ id ∨ id ∈ root ∧ (l.scope id).kind = .imports) {g : SlotId → Scope → Scope}
    (hg : Scope.Binds st.slots.size (g st.slots.size)) (b : Binding) :
    Apart l root kinds (st.bound id g b) (st'.bound id g b) := by
  have hseen : Seen l root id := hid.elim .inr fun h => .inl h.1
  have hkind : ∀ id', ((st.bound id g b).scope id').kind = (st.scope id').kind := by
    intro id'
    rw [Store.scope_bound]
    split
    · exact hg.kind _
    · rfl
  have hother : ∀ id', id ≠ id' → (st.bound id g b).scope id' = st.scope id' := fun id' hne => by
    rw [Store.scope_bound, if_neg fun h => hne h.1]
  exact
    { heap := h.heap
      size := (Table.size_update ..).trans h.size
      sizes := (Table.size_update ..).trans (h.sizes.trans (Table.size_update ..).symm)
      slots := (h.newSlot b).slots
      grown := (h.newSlot b).grown
      kind := fun k kind hk => (hkind _).trans (h.kind k kind hk)
      scope := fun id' hid' => by
        rw [Store.scope_bound, Store.scope_bound, h.sizes, h.slots, h.scope id' hid']
      binding := (h.newSlot b).binding
      reach := by
        intro id' hid' slot hslot
        rw [Store.scope_bound] at hslot
        split at hslot
        · rcases hg.slots _ slot hslot with rfl | hold
          · exact .inl h.grown
          · exact h.reach id' hid' slot hold
        · exact h.reach id' hid' slot hslot
      hidden := fun id' hid' => (hother id' fun heq => hid' (heq ▸ hseen)).trans (h.hidden id' hid')
      hiddenSlot := (h.newSlot b).hiddenSlot
      rootKind := fun id' hid' => (hkind id').trans (h.rootKind id' hid')
      root := by
        intro id' hid' hne
        refine (hother id' fun heq => ?_).trans (h.root id' hid' hne)
        rcases hid with hnew | ⟨_, himports⟩
        · exact Nat.not_lt.mpr hnew (heq ▸ hroot id' hid')
        · exact hne (heq ▸ himports) }

theorem push (hroot : ∀ id ∈ root, id < l.scopes.size) (kind : ScopeKind)
    {cells : List (String × Option SlotId)} (hcells : ∀ slot ∈ (Scope.mk kind cells).slots, SeenSlot l root slot)
    (chain : Chain) : Apart l root (kinds ++ [kind]) (st.push kind cells chain).2 (st'.push kind cells chain).2 := by
  have hnew : ∀ id, id < l.scopes.size → id ≠ st.scopes.size := fun id hid heq => by
    rw [heq, h.size] at hid
    exact Nat.not_lt.mpr (Nat.le_add_right _ _) hid
  have hold : ∀ id, id ≠ st.scopes.size → (st.push kind cells chain).2.scope id = st.scope id := fun id hne => by
    rw [Store.scope_push, if_neg hne]
  exact
    { heap := h.heap
      size := by
        show (st.scopes.alloc _).2.size = _
        rw [Table.size_alloc, h.size, List.length_append, List.length_singleton, Nat.add_assoc]
      sizes := by
        show (st'.scopes.alloc _).2.size = (st.scopes.alloc _).2.size
        rw [Table.size_alloc, Table.size_alloc, h.sizes]
      slots := h.slots
      grown := h.grown
      kind := by
        intro k kd hk
        rw [Store.scope_push]
        by_cases hlast : k = kinds.length
        · subst hlast
          rw [if_pos h.size.symm]
          simpa using hk
        · have hlt : k < kinds.length := by
            have := (List.getElem?_eq_some_iff.mp hk).1
            rw [List.length_append, List.length_singleton] at this
            exact Nat.lt_of_le_of_ne (Nat.le_of_lt_succ this) hlast
          rw [if_neg fun heq => hlast (Nat.add_left_cancel (heq.trans h.size))]
          exact h.kind k kd (by rwa [List.getElem?_append_left hlt] at hk)
      scope := fun id hid => by rw [Store.scope_push, Store.scope_push, h.sizes, h.scope id hid]
      binding := h.binding
      reach := by
        intro id hid slot hslot
        rw [Store.scope_push] at hslot
        split at hslot
        · exact hcells slot hslot
        · exact h.reach id hid slot hslot
      hidden := fun id hid => by
        refine (hold id (hnew id ?_)).trans (h.hidden id hid)
        exact Nat.not_le.mp fun hle => hid (.inr hle)
      hiddenSlot := h.hiddenSlot
      rootKind := fun id hid => by rw [hold id (hnew id (hroot id hid)), h.rootKind id hid]
      root := fun id hid hne => (hold id (hnew id (hroot id hid))).trans (h.root id hid hne) }

theorem withValue {slot : SlotId} (hslot : SeenSlot l root slot) (v : Value) :
    Apart l root kinds (st.withValue slot v) (st'.withValue slot v) :=
  { h with
    slots := (Table.size_update ..).trans (h.slots.trans (Table.size_update ..).symm)
    grown := Nat.le_trans h.grown (Nat.le_of_eq (Table.size_update ..).symm)
    binding := fun slot' hslot' => by
      by_cases heq : slot = slot'
      · subst heq
        rw [Store.binding_withValue, Store.binding_withValue, h.slots, h.binding slot hslot]
      · rw [Store.binding_withValue_ne heq, Store.binding_withValue_ne heq, h.binding slot' hslot']
    hiddenSlot := fun slot' hslot' => by
      have hne : slot ≠ slot' := fun heq => hslot' (heq ▸ hslot)
      rw [Store.binding_withValue_ne hne, h.hiddenSlot slot' hslot'] }

end Apart

/-! ## Frames of a call -/

/-- A scope that is new and not one of imports. -/
def Own (l : Store) (kinds : List ScopeKind) (id : ScopeId) : Prop :=
  ∃ k kind, id = l.scopes.size + k ∧ kinds[k]? = some kind ∧ kind ≠ .imports

/-- Scopes of a call: its own in front of those of the root. -/
def Local (l : Store) (root : Chain) (kinds : List ScopeKind) (chain : Chain) : Prop :=
  ∃ own, chain = own ++ root ∧ own ≠ [] ∧ ∀ id ∈ own, Own l kinds id

/-- A frame inside of a call. -/
structure Inner (l : Store) (root : Chain) (kinds : List ScopeKind) (f : Frame) : Prop where
  rooted : f.root = root
  scope : Local l root kinds f.scope
  /-- Among its own scopes are the registers of a function. -/
  registers : ∃ k, l.scopes.size + k ∈ f.scope ∧ kinds[k]? = some .indexed

theorem Own.mono {id : ScopeId} {more : List ScopeKind} (h : Own l kinds id) (hle : kinds <+: more) : Own l more id := by
  obtain ⟨k, kind, rfl, hk, hne⟩ := h
  obtain ⟨rest, rfl⟩ := hle
  have hlt := (List.getElem?_eq_some_iff.mp hk).1
  exact ⟨k, kind, rfl, by rw [List.getElem?_append_left hlt, hk], hne⟩

theorem Own.le {id : ScopeId} (h : Own l kinds id) : l.scopes.size ≤ id := by
  obtain ⟨k, _, rfl, _⟩ := h
  exact Nat.le_add_right _ _

theorem own_new {kind : ScopeKind} (hne : kind ≠ .imports) : Own l (kinds ++ [kind]) (l.scopes.size + kinds.length) :=
  ⟨kinds.length, kind, rfl, by simp, hne⟩

theorem Inner.mono {f : Frame} {more : List ScopeKind} (h : Inner l root kinds f) (hle : kinds <+: more) :
    Inner l root more f := by
  obtain ⟨own, hscope, hne, hown⟩ := h.scope
  obtain ⟨k, hmem, hk⟩ := h.registers
  have hlt := (List.getElem?_eq_some_iff.mp hk).1
  refine ⟨h.rooted, ⟨own, hscope, hne, fun id hid => (hown id hid).mono hle⟩, k, hmem, ?_⟩
  obtain ⟨rest, rfl⟩ := hle
  rw [List.getElem?_append_left hlt, hk]

namespace Local

variable (hc : Local l root kinds chain)
include hc

theorem seen : ∀ id ∈ chain, Seen l root id := by
  obtain ⟨own, rfl, _, hown⟩ := hc
  intro id hid
  rcases List.mem_append.mp hid with hid | hid
  · exact .inr (hown id hid).le
  · exact .inl hid

theorem creationScope (h : Apart l root kinds st st') : ∃ id, l.scopes.size ≤ id ∧ st.creationScope chain = some id := by
  obtain ⟨own, rfl, hne, hown⟩ := hc
  cases own with
  | nil => exact absurd rfl hne
  | cons id rest =>
    have hid := hown id List.mem_cons_self
    obtain ⟨k, kind, rfl, hk, himports⟩ := hid
    refine ⟨l.scopes.size + k, Nat.le_add_right _ _, ?_⟩
    simp [Store.creationScope, h.kind k kind hk, himports]

theorem importScope (h : Apart l root kinds st st') {id : ScopeId} (hid : st.importScope chain = some id) :
    id ∈ root ∧ (l.scope id).kind = .imports := by
  have hkind : (st.scope id).kind = .imports := by simpa using List.find?_some hid
  have hmem := List.mem_of_find?_eq_some hid
  obtain ⟨own, rfl, _, hown⟩ := hc
  rcases List.mem_append.mp hmem with hmem | hmem
  · obtain ⟨k, kind, rfl, hk, hne⟩ := hown id hmem
    exact absurd ((h.kind k kind hk).symm.trans hkind) hne
  · exact ⟨hmem, (h.rootKind id hmem).symm.trans hkind⟩

end Local

theorem Inner.bindingChain {f : Frame} (hf : Inner l root kinds f) (hroot : ∀ id ∈ root, id < l.scopes.size)
    (h : Apart l root kinds st st') : Local l root kinds (f.bindingChain st) := by
  unfold Frame.bindingChain
  split
  · exact hf.scope
  · obtain ⟨own, hscope, hne, hown⟩ := hf.scope
    obtain ⟨k, hmem, hk⟩ := hf.registers
    -- The registers of the function stop the search before it leaves the call.
    have hregister : l.scopes.size + k ∈ own := by
      rw [hscope] at hmem
      refine (List.mem_append.mp hmem).resolve_right fun hmem => ?_
      exact Nat.not_lt.mpr (Nat.le_add_right _ _) (hroot _ hmem)
    have hstop : own.dropWhile (fun id => !(st.scope id).isTarget) ≠ [] := fun hnil => by
      have := List.dropWhile_eq_nil_iff.mp hnil _ hregister
      simp [Scope.isTarget, h.kind k _ hk] at this
    have hdrop : f.scope.dropWhile (fun id => !(st.scope id).isTarget) =
        own.dropWhile (fun id => !(st.scope id).isTarget) ++ root := by
      rw [hscope, List.dropWhile_append, if_neg]
      simpa using hstop
    refine ⟨_, ?_, hstop, fun id hid => hown id ((List.dropWhile_sublist _).mem hid)⟩
    unfold Store.nearestTarget
    rw [hdrop]
    split
    next hnil => exact absurd (List.append_eq_nil_iff.mp hnil).1 hstop
    next => rfl

/-! ## Lockstep -/

/-- Two calls that differ in what is hidden from them. -/
def lockstep (l : Store) (root : Chain) : Lockstep where
  Index := List ScopeKind
  le := (· <+: ·)
  le_refl := List.prefix_refl
  le_trans := List.IsPrefix.trans
  Alike := fun kinds m m' => Apart l root kinds m.store m'.store ∧ m'.accel = m.accel ∧ m'.returned = m.returned ∧
    List.Forall₂ StepEvent.Alike m.events m'.events
  Frames := fun kinds f f' => f' = f ∧ Inner l root kinds f
  error := Eq
  error_refl := fun _ => rfl
  Inside := fun _ => True
  Bindable := fun _ => True

section Laws

variable {f : Frame} {st st' : Store} {m m' : Machine}

theorem Inner.pushed (hf : Inner l root kinds f) (h : Apart l root kinds st st') {kind : ScopeKind}
    (hkind : kind ≠ .imports) : Inner l root (kinds ++ [kind]) { f with scope := st.scopes.size :: f.scope } := by
  obtain ⟨hr, ⟨own, hscope, _, hown⟩, k, hmem, hk⟩ := hf.mono (List.prefix_append kinds [kind])
  rw [h.size]
  refine ⟨hr, ⟨_ :: own, by rw [hscope, List.cons_append], List.cons_ne_nil _ _, ?_⟩, k, List.mem_cons_of_mem _ hmem, hk⟩
  exact List.forall_mem_cons.mpr ⟨own_new hkind, hown⟩

variable (hroot : ∀ id ∈ root, id < l.scopes.size)
include hroot

theorem Apart.createIn (h : Apart l root kinds st st') {chain : Chain} (hlocal : Local l root kinds chain) (name : String)
    (b : Binding) (register : Option Nat) : (st'.createIn chain name b register).1 = (st.createIn chain name b register).1 ∧
      Apart l root kinds (st.createIn chain name b register).2 (st'.createIn chain name b register).2 := by
  obtain ⟨id, hid, hscope⟩ := hlocal.creationScope h
  have hscope' : st'.creationScope chain = some id := (h.creationScope hlocal.seen).trans hscope
  have hbinder : st'.binder chain name register = st.binder chain name register := by
    funext slot s
    simp only [Store.binder, h.kindOf hlocal.seen]
  rw [Store.createIn_of_some hscope, Store.createIn_of_some hscope', hbinder]
  exact ⟨h.slots, h.bound hroot (.inl hid) (Store.binds_binder register _) b⟩

theorem Apart.importInto (h : Apart l root kinds st st') {chain : Chain} (hlocal : Local l root kinds chain) (name : String)
    (v : Value) : (st'.importInto chain name v).1 = (st.importInto chain name v).1 ∧
      Apart l root kinds (st.importInto chain name v).2 (st'.importInto chain name v).2 := by
  cases hid : st.importScope chain with
  | none =>
    rw [Store.importInto_of_none hid, Store.importInto_of_none ((h.importScope hlocal.seen).trans hid)]
    exact ⟨rfl, h⟩
  | some id =>
    rw [Store.importInto_of_some hid, Store.importInto_of_some ((h.importScope hlocal.seen).trans hid)]
    refine ⟨rfl, h.bound (g := fun slot s => s.bind name slot) hroot (.inr (hlocal.importScope h hid)) ?_ _⟩
    exact Scope.binds_bind name _

theorem Apart.pushItem (h : Apart l root kinds st st') (chain : Chain) (name : String) (b : Binding) :
    Apart l root (kinds ++ [.item]) (st.pushItem chain name b).2 (st'.pushItem chain name b).2 := by
  have hseen : ∀ slot ∈ (Scope.mk .item [(name, some st.slots.size)]).slots, SeenSlot l root slot := by
    intro slot hslot
    obtain rfl : slot = st.slots.size := by simpa [Scope.slots] using hslot
    exact .inl h.grown
  simpa only [Store.pushItem, h.slots] using (h.newSlot b).push hroot .item hseen chain

theorem opens_call (hf : f.root = root) (hm : (lockstep l root).Alike kinds m m') (cells : List (String × Option SlotId))
    (hcells : (Scope.mk .indexed cells).slots = []) :
    (m'.store.push .indexed cells f.root).1 = (m.store.push .indexed cells f.root).1 ∧ ∃ more, kinds <+: more ∧
      (lockstep l root).Frames more { f with scope := m.store.scopes.size :: f.root }
        { f with scope := m.store.scopes.size :: f.root } ∧
      (lockstep l root).Alike more { m with store := (m.store.push .indexed cells f.root).2 }
        { m' with store := (m'.store.push .indexed cells f.root).2 } := by
  have hown : Own l (kinds ++ [.indexed]) (l.scopes.size + kinds.length) := own_new (by decide)
  refine ⟨congrArg (· :: f.root) hm.1.sizes, kinds ++ [.indexed], List.prefix_append .., ⟨rfl, ?_⟩,
    hm.1.push hroot .indexed (by simp [hcells]) f.root, hm.2⟩
  rw [hm.1.size]
  exact ⟨hf, ⟨[_], by rw [← hf]; rfl, List.cons_ne_nil _ _, by simpa using hown⟩, kinds.length, List.mem_cons_self, by simp⟩

theorem upkeep : (lockstep l root).Upkeep where
  frames := fun h => h.1
  frames_mono := fun hle h => ⟨h.1, h.2.mono hle⟩
  with_this := fun h _ => ⟨rfl, h.2.rooted, h.2.scope, h.2.registers⟩
  deeper := fun h _ => ⟨rfl, h.2.rooted, h.2.scope, h.2.registers⟩
  inside := fun _ => trivial
  evaluates := fun _ => trivial
  bindable_untyped := fun _ => trivial
  bindable_converted := fun _ _ => trivial
  accel := fun h => h.2.1
  returned := fun h => h.2.2.1
  heap := fun h => h.1.heap
  with_accel := fun h _ => ⟨h.1, rfl, h.2.2⟩
  with_returned := fun h _ => ⟨h.1, h.2.1, rfl, h.2.2.2⟩
  with_heap := fun h heap => ⟨h.1.withHeap heap, h.2⟩
  report := fun hf hm _ => by
    refine ⟨hm.1, hm.2.1, hm.2.2.1, .cons ?_ hm.2.2.2⟩
    exact ⟨rfl, rfl, rfl, hm.1.heap, fun name => hm.1.lookup hf.2.scope.seen name⟩
  resolve := fun hf hm name => hm.1.resolve hf.2.scope.seen name
  slot := fun hf hm hslot => hm.1.binding _ (hm.1.seenSlot_of_resolve hf.2.scope.seen hslot)
  write := fun hf hm hslot _ =>
    ⟨_, List.prefix_refl _, hm.1.withValue (hm.1.seenSlot_of_resolve hf.2.scope.seen hslot) _, hm.2⟩
  binds := by
    rintro kinds f m m' α g ⟨-, hf⟩ hm hg
    cases hg with
    | @create place hplace name b _ register =>
      have hlocal : Local l root kinds (place m.store) ∧ place m'.store = place m.store := by
        rcases List.mem_pair.mp hplace with rfl | rfl
        · exact ⟨hf.scope, rfl⟩
        · exact ⟨hf.bindingChain hroot hm.1, by unfold Frame.bindingChain; rw [hm.1.nearestTarget hf.scope.seen]⟩
      obtain ⟨hvalue, hapart⟩ := hm.1.createIn hroot hlocal.1 name b register
      dsimp only
      rw [hlocal.2]
      exact ⟨hvalue, _, List.prefix_refl _, hapart, hm.2⟩
    | importInto name v =>
      obtain ⟨hvalue, hapart⟩ := hm.1.importInto hroot hf.scope name v
      exact ⟨hvalue, _, List.prefix_refl _, hapart, hm.2⟩
  opens := by
    rintro (kinds : List ScopeKind) f m m' g ⟨-, hf⟩ hm hg
    cases hg with
    | block =>
      exact ⟨congrArg (· :: f.scope) hm.1.sizes, kinds ++ [.block], List.prefix_append .., ⟨rfl, hf.pushed hm.1 (by decide)⟩,
        hm.1.push hroot .block (by simp [Scope.slots]) f.scope, hm.2⟩
    | item name =>
      exact ⟨congrArg (· :: f.scope) hm.1.sizes, kinds ++ [.item], List.prefix_append .., ⟨rfl, hf.pushed hm.1 (by decide)⟩,
        hm.1.pushItem hroot f.scope name _, hm.2⟩
    | call => exact opens_call hroot hf.rooted hm _ (by simp [Scope.slots])

end Laws

theorem sim_callFunction {f : Frame} (hroot : ∀ id ∈ f.root, id < l.scopes.size) (fuel : Nat) (info : Info)
    (fn : Function) (args : List Value) : (lockstep l f.root).Sim [] (Eval.callFunction (Eval.node fuel) f info fn args)
      (Eval.callFunction (Eval.node fuel) f info fn args) := by
  refine .ite Iff.rfl (.stepStore (P := fun (more : List ScopeKind) scope =>
    (lockstep l f.root).Frames more { f with scope } { f with scope }) ?_ ?_) (.fail _)
  · exact fun _ _ _ _ hm => opens_call hroot rfl hm _ (by simp [Scope.slots])
  · have hL := (upkeep hroot).lawful
    exact fun _ _ _ hframe => hL.called (hL.node (upkeep hroot).sites fuel) hframe trivial info args

end Isolation

/-! ## Pending returns -/

def Machine.withReturned (m : Machine) (returned : Option Value) : Machine := { m with returned }

def Outcome.mapState {σ τ ε α : Type} (g : σ → τ) : Outcome σ ε α → Outcome τ ε α
  | ok a s => ok a (g s)
  | error e s => error e (g s)
  | diverged => diverged

/-- A computation that does not depend on the pending return, and leaves it as it is. -/
def EvalM.Steady {α : Type} (x : EvalM α) : Prop :=
  ∀ m returned, x (m.withReturned returned) = (x m).mapState (·.withReturned returned)

namespace EvalM.Steady

variable {α β : Type} {x : EvalM α}

theorem pure (a : α) : Steady (pure a) := fun _ _ => rfl

theorem fail (e : EvalError) : Steady (Run.fail e : EvalM α) := fun _ _ => rfl

theorem bind {k : α → EvalM β} (hx : x.Steady) (hk : ∀ a, (k a).Steady) : (x >>= k).Steady := by
  intro m returned
  simp only [Run.bind_apply, hx m returned]
  cases x m with
  | ok a m' => exact hk a m' returned
  | error e m' => rfl
  | diverged => rfl

theorem stepStore (g : Store → α × Store) : (EvalM.stepStore g).Steady := fun _ _ => rfl

theorem onHeap (locate : Fault → EvalError) (x : HeapM α) : (EvalM.onHeap locate x).Steady := by
  intro m returned
  simp only [EvalM.onHeap_apply, Machine.withReturned]
  cases x m.store.heap <;> rfl

/-- A `return` inside of an activation does not get out of it. -/
theorem activation (x : EvalM Value) : (Eval.activation x).Steady := by
  intro m returned
  simp only [Eval.activation, Run.bind_apply, Run.get_apply, Run.modify_apply, Run.onError, Machine.withReturned]
  cases x { m with returned := none } <;> rfl

theorem bindParams (f : Frame) (info : Info) (chain : Chain) (params : List Param) :
    ∀ (i : Nat) (args : List Value), (Eval.bindParams f info chain i params args).Steady := by
  induction params with
  | nil => exact fun _ _ => .pure ()
  | cons p rest ih =>
    intro i args
    cases args with
    | nil => exact .pure ()
    | cons v args =>
      have hrest : ∀ v, (EvalM.stepStore (fun st => st.createAt chain i p.name (.of v p.ty)) >>= fun _ =>
          Eval.bindParams f info chain (i + 1) rest args).Steady :=
        fun v => (stepStore _).bind fun _ => ih (i + 1) args
      unfold Eval.bindParams
      cases hty : p.ty with
      | none => simpa only [hty] using (pure v).bind hrest
      | some ty => simpa only [hty] using (onHeap _ _).bind hrest

theorem callFunction (ev : Evaluator) (f : Frame) (info : Info) (fn : Function) (args : List Value) :
    (Eval.callFunction ev f info fn args).Steady := by
  unfold Eval.callFunction
  split
  · refine (stepStore _).bind fun chain => (bindParams f info chain _ 0 args).bind fun _ => ?_
    split
    · exact fail _
    · exact activation _
  · exact fail _

theorem returned_eq (hx : x.Steady) {m m' : Machine} (h : (∃ a, x m = .ok a m') ∨ ∃ e, x m = .error e m') :
    m'.returned = m.returned := by
  have hsame : x m = (x m).mapState (·.withReturned m.returned) := hx m m.returned
  rcases h with ⟨a, ha⟩ | ⟨e, he⟩
  · rw [ha] at hsame
    injection hsame with _ hstate
    rw [hstate]
    rfl
  · rw [he] at hsame
    injection hsame with _ hstate
    rw [hstate]
    rfl

end EvalM.Steady

/-! ## Calls -/

namespace Isolation

variable {f : Frame} {m m' : Machine} {info : Info} {fn : Function} {args : List Value}

theorem bindParams_scope (scope chain : Chain) (params : List Param) : ∀ (i : Nat) (args : List Value),
    Eval.bindParams { f with scope } info chain i params args = Eval.bindParams f info chain i params args := by
  induction params with
  | nil => exact fun _ _ => rfl
  | cons p rest ih =>
    intro i args
    cases args with
    | nil => rfl
    | cons v args =>
      unfold Eval.bindParams
      simp only [ih]
      rfl

theorem callFunction_scope (ev : Evaluator) (scope : Chain) :
    Eval.callFunction ev { f with scope } info fn args = Eval.callFunction ev f info fn args := by
  unfold Eval.callFunction
  simp only [bindParams_scope]
  rfl

/-- A call on machines that agree on the root, and what it makes of them. -/
theorem joined_callFunction (hroot : ∀ id ∈ f.root, id < m.store.scopes.size) (hm : m.AgreeOn f.root m') (fuel : Nat) :
    (lockstep m.store f.root).Joined [] (Eval.callFunction (Eval.node fuel) f info fn args (m.withReturned none))
      (Eval.callFunction (Eval.node fuel) f info fn args (m'.withReturned none)) :=
  sim_callFunction hroot fuel info fn args [] (List.prefix_refl _) _ _ ⟨.start hm.store, hm.accel, rfl, hm.events⟩

theorem Joined.agreeOn {l : Store} {root : Chain} {kinds : List ScopeKind} {α : Type}
    {x y : Outcome Machine EvalError α} (h : (lockstep l root).Joined kinds x y) (r r' : Option Value) :
    (x.mapState (·.withReturned r)).AgreeOn root (y.mapState (·.withReturned r')) := by
  cases h with
  | ok _ alike => exact .ok _ ⟨alike.1.agreeOn, alike.2.1, alike.2.2.2⟩
  | error _ related alike =>
    obtain rfl := related
    obtain ⟨hapart, haccel, -, hevents⟩ := alike trivial
    exact .error _ ⟨hapart.agreeOn, haccel, hevents⟩
  | diverged => exact .diverged

theorem agreeOn_refl (root : Chain) (m : Machine) : m.AgreeOn root m :=
  ⟨⟨rfl, rfl, rfl, fun _ _ => rfl, fun _ _ _ _ => rfl⟩, rfl,
    List.forall₂_same.mpr fun _ _ => ⟨rfl, rfl, rfl, rfl, fun _ => rfl⟩⟩

/-- What a call can depend on. -/
theorem callFunction_agreeOn (hroot : ∀ id ∈ f.root, id < m.store.scopes.size) (hm : m.AgreeOn f.root m') (fuel : Nat)
    (scope : Chain) : (Eval.callFunction (Eval.node fuel) f info fn args m).AgreeOn f.root
      (Eval.callFunction (Eval.node fuel) { f with scope } info fn args m') := by
  have hsteady := EvalM.Steady.callFunction (Eval.node fuel) f info fn args
  have hjoined := @joined_callFunction f m m' info fn args hroot hm fuel
  have hleft := hsteady (m.withReturned none) m.returned
  have hright := hsteady (m'.withReturned none) m'.returned
  rw [callFunction_scope (Eval.node fuel) scope]
  show (Eval.callFunction (Eval.node fuel) f info fn args ((m.withReturned none).withReturned m.returned)).AgreeOn f.root
    (Eval.callFunction (Eval.node fuel) f info fn args ((m'.withReturned none).withReturned m'.returned))
  rw [hleft, hright]
  exact Joined.agreeOn hjoined _ _

/-- What a call can change. -/
theorem callFunction_frame (h : f.SoundIn m) (fuel : Nat) {m' : Machine}
    (hm' : (∃ v, Eval.callFunction (Eval.node fuel) f info fn args m = .ok v m') ∨
      ∃ e, Eval.callFunction (Eval.node fuel) f info fn args m = .error e m') :
    (∀ id < m.store.scopes.size, id ∉ f.root → m'.store.scope id = m.store.scope id ∧
      ∀ slot ∈ (m.store.scope id).slots, m'.store.binding slot = m.store.binding slot) ∧
    ∀ id ∈ f.root, (m.store.scope id).kind ≠ .imports → m'.store.scope id = m.store.scope id := by
  have hjoined := @joined_callFunction f m m info fn args h.2.root (agreeOn_refl f.root m) fuel
  have hsteady := EvalM.Steady.callFunction (Eval.node fuel) f info fn args m none
  -- The store at the end is that of the call without a pending return.
  obtain ⟨kinds, hapart⟩ : ∃ kinds, Apart m.store f.root kinds m'.store m'.store := by
    rw [hsteady] at hjoined
    rcases hm' with ⟨v, hv⟩ | ⟨e, he⟩
    · rw [hv] at hjoined
      cases hjoined with
      | ok _ alike => exact ⟨_, alike.1⟩
    · rw [he] at hjoined
      cases hjoined with
      | error _ _ alike => exact ⟨_, (alike trivial).1⟩
  refine ⟨fun id hlt hid => ⟨?_, fun slot hslot => ?_⟩, hapart.root⟩
  · exact hapart.hidden id fun hseen => hseen.elim hid (Nat.not_le.mpr hlt)
  · refine hapart.hiddenSlot slot ?_
    rintro (hnew | ⟨id', hid', hslot'⟩)
    · exact Nat.not_le.mpr (h.1.inBounds id slot hslot) hnew
    · exact h.1.apart id id' (fun heq => hid (heq ▸ hid')) slot hslot hslot'

theorem callFunction_tooDeep (hd : f.runtime.config.maxCallDepth < f.depth + 1) (ev : Evaluator) :
    Eval.callFunction ev f info fn args = (do
      if args.length = fn.params.length then
        let chain ← EvalM.stepStore fun st => st.push .indexed (fn.registers.map fun name => (name, none)) f.root
        Eval.bindParams f info chain 0 fn.params args
        Run.fail (f.errorIn info (.callDepth f.runtime.config.maxCallDepth))
      else Run.fail (f.errorIn info (.arity fn.name fn.params.length args.length))) := by
  unfold Eval.callFunction
  simp only [if_pos hd]

/-- Calls are isolated.

* The outcome of a call depends on the frame only through what is not its scopes, and on the store only through what the
  root of the frame leads to: machines that agree there give the same outcome, and agree there again.
* No scope that existed is changed, nor any slot it refers to, unless it belongs to the root; in the root, scopes change
  only by imports, so that no name is added to the variables of the caller. A pending return is kept.
* Evaluation from a sound frame meets only sound frames, and so none that is nested deeper than allowed: it does not
  matter what evaluation would do in another.
* A call that would be nested deeper fails, and not because of its body, which is not looked at. -/
theorem call_isolated (fuel : Nat) (h : f.SoundIn m) (info : Info) (fn : Function) (args : List Value) :
    (∀ scope m', m.AgreeOn f.root m' → (Eval.callFunction (Eval.node fuel) f info fn args m).AgreeOn f.root
        (Eval.callFunction (Eval.node fuel) { f with scope } info fn args m')) ∧
    (∀ m', ((∃ v, Eval.callFunction (Eval.node fuel) f info fn args m = .ok v m') ∨
        ∃ e, Eval.callFunction (Eval.node fuel) f info fn args m = .error e m') →
      (∀ id < m.store.scopes.size, id ∉ f.root → m'.store.scope id = m.store.scope id ∧
        ∀ slot ∈ (m.store.scope id).slots, m'.store.binding slot = m.store.binding slot) ∧
      (∀ id ∈ f.root, (m.store.scope id).kind ≠ .imports → m'.store.scope id = m.store.scope id) ∧
      m'.returned = m.returned) ∧ (∀ beyond n, Eval.nodeWithin Frame.SoundIn beyond fuel f n m = Eval.node fuel f n m) ∧
    (f.runtime.config.maxCallDepth < f.depth + 1 →
      (∀ ev ev', Eval.callFunction ev f info fn args = Eval.callFunction ev' f info fn args) ∧
      ∀ ev, (∀ v m', Eval.callFunction ev f info fn args m ≠ .ok v m') ∧
        ∀ chain st m', m.store.push .indexed (fn.registers.map fun name => (name, none)) f.root = (chain, st) →
          args.length = fn.params.length →
          Eval.bindParams f info chain 0 fn.params args { m with store := st } = .ok () m' →
          Eval.callFunction ev f info fn args m =
            .error (f.errorIn info (.callDepth f.runtime.config.maxCallDepth)) m') := by
  refine ⟨fun scope m' hm => callFunction_agreeOn h.2.root hm fuel scope, fun m' hm' => ?_,
    fun beyond n => h.node_eq_nodeWithin beyond fuel n, fun hd => ⟨fun ev ev' => ?_, fun ev => ⟨?_, ?_⟩⟩⟩
  · obtain ⟨hscopes, hroot⟩ := callFunction_frame h fuel hm'
    exact ⟨hscopes, hroot, (EvalM.Steady.callFunction _ f info fn args).returned_eq hm'⟩
  · rw [callFunction_tooDeep hd, callFunction_tooDeep hd]
  · intro v m' hv
    rw [callFunction_tooDeep hd] at hv
    split at hv
    · rw [Run.bind_ok (EvalM.stepStore_apply _ m)] at hv
      obtain ⟨_, _, _, hfail⟩ := Run.bind_eq_ok.mp hv
      cases hfail
    · cases hv
  · intro chain st m' hpush harity hbind
    rw [callFunction_tooDeep hd, if_pos harity, Run.bind_ok (EvalM.stepStore_apply _ m), hpush]
    dsimp only
    rw [Run.bind_ok hbind]
    rfl

/-- A function that assigns to `x`, called from a block that binds `x`: the call binds a name of its own, and neither the
block nor the variables of the caller change. -/
theorem call_isolated_local_name :
    let body : Node := ⟨default, .block [⟨default, .assignment (.name "x") none (some ⟨default, .literal (.bool true)⟩)
      none none⟩] true⟩
    let fn : Function := ⟨0, "f", [], body, [], [], default⟩
    let runtime : Runtime := ⟨{ Config.standard with blockScoping := .promote, maxCallDepth := 1 }, default, .standard, none,
      .empty⟩
    let f : Frame := ⟨⟨.standard, #[], #[fn], fun _ => 0⟩, runtime, .null, .null, [2, 1, 0], [1, 0], .interpreted, false, 0⟩
    let m : Machine := { Machine.start 0 with store := ⟨.empty,
      ⟨#[⟨.global, []⟩, ⟨.imports, []⟩, ⟨.block, [("x", some 0)]⟩]⟩, ⟨#[⟨.bool false, none⟩]⟩⟩ }
    f.SoundIn m ∧ ∃ v m', Eval.callFunction (Eval.node 2) f default fn [] m = .ok v m' ∧
      m'.store.scope 3 = ⟨.indexed, [("x", some 1)]⟩ ∧ m'.store.scope 2 = ⟨.block, [("x", some 0)]⟩ ∧
      m'.store.binding 0 = ⟨.bool false, none⟩ ∧ m'.store.scope 0 = ⟨.global, []⟩ := by
  intro body fn runtime f m
  have hslots : ∀ id slot, slot ∈ (m.store.scope id).slots → id = 2 ∧ slot = 0
    | 0, _, h | 1, _, h => by cases h
    | 2, _, h => ⟨rfl, List.mem_singleton.mp h⟩
    | id + 3, _, h => by
        rw [Store.scope_eq_default (show m.store.scopes.size ≤ id + 3 from Nat.le_add_left 3 id)] at h
        cases h
  have hsound : f.SoundIn m := by
    refine ⟨⟨fun id slot h => ?_, fun id id' hne slot h h' => hne ?_⟩, by decide, by decide, by decide⟩
    · obtain ⟨-, rfl⟩ := hslots id slot h
      decide
    · exact (hslots id slot h).1.trans (hslots id' slot h').1.symm
  obtain ⟨-, hframe, -⟩ := call_isolated 2 hsound default fn []
  refine ⟨hsound, _, _, rfl, rfl, ?_⟩
  obtain ⟨hscopes, hroot, -⟩ := hframe _ (.inl ⟨_, rfl⟩)
  have hblock := hscopes 2 (by decide) (by decide)
  exact ⟨hblock.1, hblock.2 0 (by decide), hroot 0 (by decide) (by decide)⟩

end Isolation

end PathScript
