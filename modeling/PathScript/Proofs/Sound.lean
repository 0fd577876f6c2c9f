import PathScript.Engine
import PathScript.Proofs.Lockstep.Sites

/-! # Sound stores and frames

Scopes refer to slots and frames to scopes by number. A store is sound if every
slot a scope refers to exists and belongs to that scope alone; a frame is sound
if its scopes exist and it is not nested deeper than calls may be. Evaluation
that starts in a sound frame never leaves them: it would do the same if it did
anything else in a frame that is not sound. -/

namespace PathScript

/-! ## Binding a slot -/

theorem Entries.keys_set {α : Type} {es : List (String × α)} {k : String} {i : Nat} (h : (es[i]?).map (·.1) = some k)
    (v : α) : keys (es.set i (k, v)) = keys es := by
  induction es generalizing i with
  | nil => rfl
  | cons e rest ih =>
    cases i with
    | zero =>
      have hk : e.1 = k := Option.some.inj h
      rw [List.set_cons_zero, keys, keys, List.map_cons, List.map_cons, hk]
    | succ i =>
      rw [List.set_cons_succ, keys, keys, List.map_cons, List.map_cons]
      exact congrArg _ (ih h)

namespace Scope

/-- The slots that a scope refers to. -/
def slots (s : Scope) : List SlotId := s.cells.filterMap (·.2)

theorem mem_slots {s : Scope} {slot : SlotId} : slot ∈ s.slots ↔ ∃ name, (name, some slot) ∈ s.cells := by
  simp only [slots, List.mem_filterMap, Prod.exists, exists_eq_right]

theorem mem_slots_of_local? {s : Scope} {name : String} {slot : SlotId} (h : s.local? name = some slot) :
    slot ∈ s.slots :=
  mem_slots.mpr ⟨name, Entries.mem_of_find? (Option.join_eq_some_iff.mp h)⟩

/-- A change of a scope that keeps its kind and brings in no slot but one. -/
structure Binds (slot : SlotId) (g : Scope → Scope) : Prop where
  kind : ∀ s, (g s).kind = s.kind
  slots : ∀ s, ∀ x ∈ (g s).slots, x = slot ∨ x ∈ s.slots

theorem binds_bind (name : String) (slot : SlotId) : Binds slot fun s => s.bind name slot where
  kind := fun _ => rfl
  slots := by
    intro s x hx
    obtain ⟨key, hmem⟩ := mem_slots.mp hx
    rcases Entries.mem_put hmem with h | h
    · exact .inl (Option.some.inj (congrArg Prod.snd h))
    · exact .inr (mem_slots.mpr ⟨key, h⟩)

theorem binds_bindAt (i : Nat) (name : String) (slot : SlotId) : Binds slot fun s => s.bindAt i name slot where
  kind := by
    intro s
    unfold bindAt
    split <;> rfl
  slots := by
    intro s x hx
    unfold bindAt at hx
    split at hx
    · obtain ⟨key, hmem⟩ := mem_slots.mp hx
      rcases List.mem_or_eq_of_mem_set hmem with h | h
      · exact .inr (mem_slots.mpr ⟨key, h⟩)
      · exact .inl (Option.some.inj (congrArg Prod.snd h))
    · exact (binds_bind name slot).slots s x hx

/-- No name has two places in a scope. -/
def Distinct (s : Scope) : Prop := (Entries.keys s.cells).Nodup

theorem Distinct.bind {s : Scope} (h : s.Distinct) (name : String) (slot : SlotId) : (s.bind name slot).Distinct :=
  Entries.nodup_put h name _

theorem Distinct.bindAt {s : Scope} (h : s.Distinct) (i : Nat) (name : String) (slot : SlotId) :
    (s.bindAt i name slot).Distinct := by
  unfold Scope.bindAt
  split
  next hi =>
    have hname := beq_iff_eq.mp ((Bool.and_eq_true _ _).mp hi).2
    rw [Distinct, Entries.keys_set hname]
    exact h
  next => exact h.bind name slot

end Scope

namespace Store

variable {st : Store} {chain : Chain} {id : ScopeId} {name : String} {b : Binding}

/-- A store where a scope binds a new slot. -/
def bound (st : Store) (id : ScopeId) (g : SlotId → Scope → Scope) (b : Binding) : Store :=
  { st with slots := (st.slots.alloc b).2, scopes := st.scopes.update id (g st.slots.size) }

/-- How a chain binds a name. -/
def binder (st : Store) (chain : Chain) (name : String) (register : Option Nat) (slot : SlotId) (s : Scope) : Scope :=
  match register with
  | some i => if st.kindOf chain = .indexed then s.bindAt i name slot else s.bind name slot
  | none => s.bind name slot

theorem binds_binder (register : Option Nat) (slot : SlotId) : Scope.Binds slot (st.binder chain name register slot) := by
  unfold binder
  cases register with
  | none => exact Scope.binds_bind name slot
  | some i =>
    by_cases h : st.kindOf chain = .indexed
    · simpa only [if_pos h] using Scope.binds_bindAt i name slot
    · simpa only [if_neg h] using Scope.binds_bind name slot

theorem distinct_binder (register : Option Nat) (slot : SlotId) {s : Scope} (h : s.Distinct) :
    (st.binder chain name register slot s).Distinct := by
  unfold binder
  cases register with
  | none => exact h.bind name slot
  | some i =>
    dsimp only
    split
    next => exact h.bindAt i name slot
    next => exact h.bind name slot

theorem creationScope_of_kindOf (h : st.kindOf (id :: chain) = .indexed) : st.creationScope (id :: chain) = some id := by
  have hkind : (st.scope id).kind = .indexed := h
  simp [creationScope, hkind]

theorem createIn_of_none (h : st.creationScope chain = none) (register : Option Nat) :
    st.createIn chain name b register = st.newSlot b := by
  have hcreate : st.create chain name b = st.newSlot b := by simp only [create, h]
  cases register with
  | none => exact hcreate
  | some i =>
    cases chain with
    | nil => exact hcreate
    | cons id rest =>
      have hkind : st.kindOf (id :: rest) ≠ .indexed := fun hk => by
        rw [creationScope_of_kindOf hk] at h
        cases h
      simp only [createIn, if_neg hkind, hcreate]

theorem createIn_of_some (h : st.creationScope chain = some id) (register : Option Nat) :
    st.createIn chain name b register = (st.slots.size, st.bound id (st.binder chain name register) b) := by
  have hcreate : st.create chain name b = (st.slots.size, st.bound id (fun slot s => s.bind name slot) b) := by
    simp only [create, h]
    rfl
  cases register with
  | none => exact hcreate
  | some i =>
    by_cases hkind : st.kindOf chain = .indexed
    · cases chain with
      | nil => simp [creationScope] at h
      | cons id' rest =>
        obtain rfl : id' = id := Option.some.inj ((creationScope_of_kindOf hkind).symm.trans h)
        have hhead : (st.scope id').kind = .indexed := hkind
        have hbinder : st.binder (id' :: rest) name (some i) = fun slot s => s.bindAt i name slot := by
          funext slot s
          simp only [binder, hkind, if_true]
        rw [hbinder]
        simp only [createIn, createAt, hkind, hhead, if_true]
        rfl
    · have hbinder : st.binder chain name (some i) = fun slot s => s.bind name slot := by
        funext slot s
        simp only [binder, if_neg hkind]
      rw [hbinder]
      simp only [createIn, if_neg hkind, hcreate]

theorem createAt_eq_createIn (i : Nat) : st.createAt chain i name b = st.createIn chain name b (some i) := by
  cases chain with
  | nil => rfl
  | cons id rest =>
    by_cases hkind : (st.scope id).kind = .indexed
    · have hk : st.kindOf (id :: rest) = .indexed := hkind
      simp only [createIn, hk, if_true]
    · have hk : ¬st.kindOf (id :: rest) = .indexed := hkind
      simp only [createAt, createIn, if_neg hkind, if_neg hk]

/-- Where imports go. -/
def importScope (st : Store) (chain : Chain) : Option ScopeId := chain.find? fun id => (st.scope id).kind == .imports

theorem importInto_of_none (h : st.importScope chain = none) (v : Value) : st.importInto chain name v = (false, st) := by
  unfold importScope at h
  simp only [importInto, h]

theorem importInto_of_some (h : st.importScope chain = some id) (v : Value) :
    st.importInto chain name v = (true, st.bound id (fun slot s => s.bind name slot) ⟨v, none⟩) := by
  unfold importScope at h
  have hkind : (st.scope id).kind = .imports := by simpa using List.find?_some h
  simp only [importInto, h, importAt, hkind, if_true]
  rfl

/-- What holds of a store with a new slot, and of one where a scope binds it, holds when a name is created. -/
theorem createIn_cases {P : Store → Prop} (hslot : P (st.newSlot b).2) {register : Option Nat}
    (hbound : ∀ id, st.creationScope chain = some id → P (st.bound id (st.binder chain name register) b)) :
    P (st.createIn chain name b register).2 := by
  cases hscope : st.creationScope chain with
  | none => rwa [createIn_of_none hscope]
  | some id => rw [createIn_of_some hscope]; exact hbound id hscope

theorem importInto_cases {P : Store → Prop} (h : P st) {v : Value} (hbound : ∀ id, st.importScope chain = some id →
      P (st.bound id (fun slot s => s.bind name slot) ⟨v, none⟩)) : P (st.importInto chain name v).2 := by
  cases hscope : st.importScope chain with
  | none => rwa [importInto_of_none hscope]
  | some id => rw [importInto_of_some hscope]; exact hbound id hscope

/-! ## What changes -/

theorem scope_bound (g : SlotId → Scope → Scope) (id' : ScopeId) : (st.bound id g b).scope id' =
      if id = id' ∧ id' < st.scopes.size then g st.slots.size (st.scope id') else st.scope id' := by
  simp only [scope, bound, Table.get?_update]
  by_cases h : id = id'
  · by_cases hlt : id' < st.scopes.size
    · have hsome : st.scopes.get? id' = some st.scopes.cells[id'] := Array.getElem?_eq_getElem hlt
      simp [h, hlt, hsome]
    · have hnone : st.scopes.get? id' = none := Array.getElem?_eq_none (Nat.le_of_not_lt hlt)
      simp [h, hlt, hnone]
  · simp [h]

theorem binding_newSlot (slot : SlotId) :
    (st.newSlot b).2.binding slot = if slot = st.slots.size then b else st.binding slot := by
  simp only [binding, newSlot, Table.get?_alloc, Table.alloc_fst]
  by_cases h : slot = st.slots.size <;> simp [h]

/-- A new scope for the item of a loop, in front of a chain. -/
def pushItem (chain : Chain) (name : String) (b : Binding) (st : Store) : Chain × Store :=
  (st.newSlot b).2.push .item [(name, some st.slots.size)] chain

theorem scope_push (kind : ScopeKind) (cells : List (String × Option SlotId)) (id : ScopeId) :
    (st.push kind cells chain).2.scope id = if id = st.scopes.size then ⟨kind, cells⟩ else st.scope id := by
  simp only [scope, push, Table.get?_alloc, Table.alloc_fst]
  by_cases h : id = st.scopes.size <;> simp [h]

/-- The store with another value in a slot. -/
def withValue (st : Store) (slot : SlotId) (v : Value) : Store :=
  { st with slots := st.slots.update slot fun b => { b with value := v } }

theorem binding_withValue (slot : SlotId) (v : Value) : (st.withValue slot v).binding slot =
      if slot < st.slots.size then { st.binding slot with value := v } else st.binding slot := by
  simp only [binding, withValue, Table.get?_update, if_true]
  by_cases hlt : slot < st.slots.size
  · have hsome : st.slots.get? slot = some st.slots.cells[slot] := Array.getElem?_eq_getElem hlt
    simp [hlt, hsome]
  · have hnone : st.slots.get? slot = none := Array.getElem?_eq_none (Nat.le_of_not_lt hlt)
    simp [hlt, hnone]

theorem binding_withValue_ne {slot slot' : SlotId} (h : slot ≠ slot') (v : Value) :
    (st.withValue slot v).binding slot' = st.binding slot' := by
  simp only [binding, withValue, Table.get?_update, if_neg h]

end Store

/-! ## Sound stores -/

namespace Store

/-- Slots that scopes refer to exist, and belong to one scope each. -/
structure Sound (st : Store) : Prop where
  inBounds : ∀ id, ∀ slot ∈ (st.scope id).slots, slot < st.slots.size
  apart : ∀ id id', id ≠ id' → ∀ slot ∈ (st.scope id).slots, slot ∉ (st.scope id').slots

theorem scope_eq_default {st : Store} {id : ScopeId} (h : st.scopes.size ≤ id) : st.scope id = default := by
  have hnone : st.scopes.get? id = none := Array.getElem?_eq_none h
  simp [scope, hnone]

theorem binding_eq_default {st : Store} {slot : SlotId} (h : st.slots.size ≤ slot) : st.binding slot = default := by
  have hnone : st.slots.get? slot = none := Array.getElem?_eq_none h
  simp [binding, hnone]

theorem empty_sound : Store.empty.Sound := by
  have hscope : ∀ id, Store.empty.scope id = default := fun id => scope_eq_default (Nat.zero_le id)
  constructor
  · intro id slot hslot
    rw [hscope] at hslot
    cases hslot
  · intro id id' _ slot hslot
    rw [hscope] at hslot
    cases hslot

namespace Sound

variable {st : Store}

theorem newSlot (h : st.Sound) (b : Binding) : (st.newSlot b).2.Sound where
  inBounds := fun id slot hslot => by
    have hlt : slot < st.slots.size := h.inBounds id slot hslot
    show slot < (st.slots.alloc b).2.size
    rw [Table.size_alloc]
    exact Nat.lt_succ_of_lt hlt
  apart := h.apart

theorem bound (h : st.Sound) (id : ScopeId) {g : SlotId → Scope → Scope} (hg : Scope.Binds st.slots.size (g st.slots.size))
    (b : Binding) : (st.bound id g b).Sound := by
  -- A scope has its old slots, and one of them the new one besides.
  have held : ∀ id', ∀ slot ∈ ((st.bound id g b).scope id').slots,
      id = id' ∧ slot = st.slots.size ∨ slot ∈ (st.scope id').slots := by
    intro id' slot hslot
    rw [scope_bound] at hslot
    split at hslot
    next hid => exact (hg.slots _ slot hslot).imp_left fun hs => ⟨hid.1, hs⟩
    next => exact .inr hslot
  constructor
  · intro id' slot hslot
    show slot < (st.slots.alloc b).2.size
    rw [Table.size_alloc]
    rcases held id' slot hslot with ⟨_, rfl⟩ | hold
    · exact Nat.lt_succ_self _
    · exact Nat.lt_succ_of_lt (h.inBounds id' slot hold)
  · intro id₁ id₂ hne slot h₁ h₂
    rcases held id₁ slot h₁ with ⟨hid₁, hs₁⟩ | h₁ <;> rcases held id₂ slot h₂ with ⟨hid₂, hs₂⟩ | h₂
    · exact hne (hid₁.symm.trans hid₂)
    · exact Nat.ne_of_lt (h.inBounds id₂ slot h₂) hs₁
    · exact Nat.ne_of_lt (h.inBounds id₁ slot h₁) hs₂
    · exact h.apart id₁ id₂ hne slot h₁ h₂

/-- A new scope may refer to slots that exist and that no scope refers to. -/
theorem push (h : st.Sound) (kind : ScopeKind) {cells : List (String × Option SlotId)} (chain : Chain)
    (hnew : ∀ slot ∈ (Scope.mk kind cells).slots, slot < st.slots.size ∧ ∀ id, slot ∉ (st.scope id).slots) :
    (st.push kind cells chain).2.Sound := by
  have held : ∀ id, ∀ slot ∈ ((st.push kind cells chain).2.scope id).slots,
      id = st.scopes.size ∧ slot ∈ (Scope.mk kind cells).slots ∨ slot ∈ (st.scope id).slots := by
    intro id slot hslot
    rw [scope_push] at hslot
    split at hslot
    next hid => exact .inl ⟨hid, hslot⟩
    next => exact .inr hslot
  constructor
  · intro id slot hslot
    rcases held id slot hslot with ⟨_, hs⟩ | hold
    · exact (hnew slot hs).1
    · exact h.inBounds id slot hold
  · intro id₁ id₂ hne slot h₁ h₂
    rcases held id₁ slot h₁ with ⟨h₁', hs⟩ | h₁ <;> rcases held id₂ slot h₂ with ⟨h₂', hs'⟩ | h₂
    · exact hne (h₁'.trans h₂'.symm)
    · exact (hnew slot hs).2 id₂ h₂
    · exact (hnew slot hs').2 id₁ h₁
    · exact h.apart id₁ id₂ hne slot h₁ h₂

theorem pushItem (h : st.Sound) (chain : Chain) (name : String) (b : Binding) : (st.pushItem chain name b).2.Sound := by
  refine (h.newSlot b).push .item chain fun slot hslot => ?_
  obtain rfl : slot = st.slots.size := by simpa [Scope.slots] using hslot
  refine ⟨?_, fun id hid => Nat.lt_irrefl _ (h.inBounds id _ hid)⟩
  show st.slots.size < (st.slots.alloc b).2.size
  rw [Table.size_alloc]
  exact Nat.lt_succ_self _

theorem withValue (h : st.Sound) (slot : SlotId) (v : Value) : (st.withValue slot v).Sound where
  inBounds := fun id slot' hslot => by
    show slot' < (st.slots.update slot _).size
    rw [Table.size_update]
    exact h.inBounds id slot' hslot
  apart := h.apart

theorem createIn (h : st.Sound) (chain : Chain) (name : String) (b : Binding) (register : Option Nat) :
    (st.createIn chain name b register).2.Sound :=
  createIn_cases (h.newSlot b) fun id _ => h.bound id (binds_binder register _) b

theorem importInto (h : st.Sound) (chain : Chain) (name : String) (v : Value) : (st.importInto chain name v).2.Sound :=
  importInto_cases h fun id _ => h.bound id (Scope.binds_bind name _) _

end Sound

theorem scopes_size_createIn (st : Store) (chain : Chain) (name : String) (b : Binding) (register : Option Nat) :
    (st.createIn chain name b register).2.scopes.size = st.scopes.size :=
  createIn_cases (P := fun st' => st'.scopes.size = st.scopes.size) rfl fun _ _ => Table.size_update ..

theorem scopes_size_importInto (st : Store) (chain : Chain) (name : String) (v : Value) :
    (st.importInto chain name v).2.scopes.size = st.scopes.size :=
  importInto_cases (P := fun st' => st'.scopes.size = st.scopes.size) rfl fun _ _ => Table.size_update ..

end Store

/-! ## Scopes that stay -/

namespace Table

variable {t t' : Table Scope} {id : ScopeId}

/-- The scope of a number. -/
def scope (t : Table Scope) (id : ScopeId) : Scope := (t.get? id).getD default

theorem scope_eq (st : Store) (id : ScopeId) : st.scopes.scope id = st.scope id := rfl

theorem scope_alloc (s : Scope) : (t.alloc s).2.scope id = if id = t.size then s else t.scope id := by
  rw [scope, Table.get?_alloc, Table.alloc_fst]
  by_cases h : id = t.size
  · rw [if_pos h, if_pos h]
    rfl
  · rw [if_neg h, if_neg h]
    rfl

/-- Later scopes: those that were there have their kinds, and distinct names if they had. -/
structure Grows (t t' : Table Scope) : Prop where
  size : t.size ≤ t'.size
  kind : ∀ id < t.size, (t'.scope id).kind = (t.scope id).kind
  distinct : ∀ id < t.size, (t.scope id).Distinct → (t'.scope id).Distinct

namespace Grows

theorem refl (t : Table Scope) : t.Grows t := ⟨Nat.le_refl _, fun _ _ => rfl, fun _ _ h => h⟩

theorem trans {t'' : Table Scope} (h : t.Grows t') (h' : t'.Grows t'') : t.Grows t'' where
  size := Nat.le_trans h.size h'.size
  kind id hid := (h'.kind id (Nat.lt_of_lt_of_le hid h.size)).trans (h.kind id hid)
  distinct id hid hd := h'.distinct id (Nat.lt_of_lt_of_le hid h.size) (h.distinct id hid hd)

theorem alloc (t : Table Scope) (s : Scope) : t.Grows (t.alloc s).2 := by
  have hsame : ∀ id < t.size, (t.alloc s).2.scope id = t.scope id := fun id hid => by
    rw [scope_alloc, if_neg (Nat.ne_of_lt hid)]
  refine ⟨?_, fun id hid => by rw [hsame id hid], fun id hid h => by rw [hsame id hid]; exact h⟩
  rw [Table.size_alloc]
  exact Nat.le_succ _

theorem bound (st : Store) (id : ScopeId) {g : SlotId → Scope → Scope} (b : Binding)
    (hkind : ∀ s, (g st.slots.size s).kind = s.kind) (hg : ∀ s : Scope, s.Distinct → (g st.slots.size s).Distinct) :
    st.scopes.Grows (st.bound id g b).scopes where
  size := Nat.le_of_eq (Table.size_update ..).symm
  kind id' _ := by
    rw [scope_eq, scope_eq, Store.scope_bound]
    split
    next => exact hkind _
    next => rfl
  distinct id' _ h := by
    rw [scope_eq, Store.scope_bound]
    split
    next => exact hg _ h
    next => exact h

end Grows

end Table

/-! ## Names that stay -/

/-- The scopes of a store, and the types of its slots. -/
structure Names where
  scopes : Table Scope
  types : SlotId → Option (Option Ty)

def Store.names (st : Store) : Names := ⟨st.scopes, fun slot => (st.slots.get? slot).map Binding.ty⟩

/-- Later names: scopes stay what they are and slots keep their types, and some scopes, unless they are of imports, keep
all their names. -/
structure Names.Grows (Kept : ScopeId → Prop) (i j : Names) : Prop where
  scopes : i.scopes.Grows j.scopes
  types : ∀ slot, ∀ ty ∈ i.types slot, j.types slot = some ty
  kept : ∀ id < i.scopes.size, Kept id → (i.scopes.scope id).kind ≠ .imports → j.scopes.scope id = i.scopes.scope id

namespace Names.Grows

variable {Kept : ScopeId → Prop} {st : Store} {chain : Chain} {id : ScopeId} {name : String} {b : Binding}

theorem refl (i : Names) : i.Grows Kept i := ⟨.refl _, fun _ _ h => h, fun _ _ _ _ => rfl⟩

theorem trans {i j k : Names} (h : i.Grows Kept j) (h' : j.Grows Kept k) : i.Grows Kept k where
  scopes := h.scopes.trans h'.scopes
  types slot ty hty := h'.types slot ty (h.types slot ty hty)
  kept id hid hk hkind := by
    have hkind' : (j.scopes.scope id).kind ≠ .imports := by rwa [h.scopes.kind id hid]
    rw [h'.kept id (Nat.lt_of_lt_of_le hid h.scopes.size) hk hkind', h.kept id hid hk hkind]

theorem types_alloc (st : Store) (b : Binding) (slot : SlotId) (ty : Option Ty) (h : ty ∈ st.names.types slot) :
    ((st.slots.alloc b).2.get? slot).map Binding.ty = some ty := by
  obtain ⟨b', hb', rfl⟩ := Option.map_eq_some_iff.mp h
  have hne : slot ≠ st.slots.size := by
    rintro rfl
    have hnone : st.slots.get? st.slots.size = none := Array.getElem?_eq_none (Nat.le_refl _)
    rw [hnone] at hb'
    cases hb'
  rw [Table.get?_alloc, Table.alloc_fst, if_neg hne, hb']
  rfl

theorem newSlot (st : Store) (b : Binding) : st.names.Grows Kept (st.newSlot b).2.names :=
  ⟨.refl _, types_alloc st b, fun _ _ _ _ => rfl⟩

theorem withValue (st : Store) (slot : SlotId) (v : Value) : st.names.Grows Kept (st.withValue slot v).names := by
  refine ⟨.refl _, fun slot' ty hty => ?_, fun _ _ _ _ => rfl⟩
  obtain ⟨b, hb, rfl⟩ := Option.map_eq_some_iff.mp hty
  show ((st.slots.update slot _).get? slot').map Binding.ty = _
  rw [Table.get?_update, hb]
  split <;> rfl

theorem push (st : Store) (kind : ScopeKind) (cells : List (String × Option SlotId)) (chain : Chain) :
    st.names.Grows Kept (st.push kind cells chain).2.names := by
  refine ⟨.alloc _ _, fun _ _ h => h, fun id (hid : id < st.scopes.size) _ _ => ?_⟩
  show (st.push kind cells chain).2.scope id = st.scope id
  rw [Store.scope_push, if_neg (Nat.ne_of_lt hid)]

theorem pushItem (st : Store) (chain : Chain) (name : String) (b : Binding) :
    st.names.Grows Kept (st.pushItem chain name b).2.names := (newSlot st b).trans (push _ _ _ _)

theorem bound {g : SlotId → Scope → Scope} (hkind : ∀ s, (g st.slots.size s).kind = s.kind)
    (hg : ∀ s : Scope, s.Distinct → (g st.slots.size s).Distinct)
    (hid : Kept id → (st.scope id).kind = .imports) (b : Binding) : st.names.Grows Kept (st.bound id g b).names := by
  refine ⟨.bound st id b hkind hg, types_alloc st b, fun id' _ hk himports => ?_⟩
  show (st.bound id g b).scope id' = st.scope id'
  rw [Store.scope_bound, if_neg]
  rintro ⟨rfl, -⟩
  exact himports (hid hk)

theorem createIn (hid : ∀ id, st.creationScope chain = some id → ¬ Kept id) (name : String) (b : Binding)
    (register : Option Nat) : st.names.Grows Kept (st.createIn chain name b register).2.names :=
  Store.createIn_cases (P := fun st' => st.names.Grows Kept st'.names) (newSlot st b) fun id hscope =>
    bound (Store.binds_binder register _).kind (fun _ hs => Store.distinct_binder register _ hs)
      (fun hk => absurd hk (hid id hscope)) b

theorem importInto (st : Store) (chain : Chain) (name : String) (v : Value) :
    st.names.Grows Kept (st.importInto chain name v).2.names :=
  Store.importInto_cases (P := fun st' => st.names.Grows Kept st'.names) (refl _) fun id hscope =>
    bound (fun _ => rfl) (fun _ hs => hs.bind name _) (fun _ => by simpa using List.find?_some hscope) _

end Names.Grows

/-! ## Storing a name -/

section Storing

variable (locate : Fault → EvalError) (v : Value)

theorem EvalM.onStore_assign (converter : Converter) (slot : SlotId) :
    EvalM.onStore locate (Store.assign converter slot v) = (do
      let m ← Run.get
      let stored ← match (m.store.binding slot).ty with
        | some ty => EvalM.onHeap locate (converter.convert v ty)
        | none => pure v
      EvalM.stepStore fun st => ((), st.withValue slot stored)
      pure stored) := by
  unfold Store.assign
  rw [EvalM.onStore_get]
  refine congrArg (Run.get >>= ·) (funext fun m => ?_)
  have put : ∀ stored, EvalM.onStore locate (do
        Run.modify fun st => { st with slots := st.slots.update slot fun b => { b with value := stored } }
        pure stored) = (EvalM.stepStore fun st => ((), st.withValue slot stored)) >>= fun _ => pure stored := by
    intro stored
    rw [EvalM.onStore_bind, EvalM.onStore_modify, EvalM.onStore_pure]
    rfl
  cases (m.store.binding slot).ty with
  | some ty => exact (EvalM.onStore_bind locate _ _).trans (congrArg (EvalM.onHeap locate _ >>= ·) (funext put))
  | none =>
    dsimp only
    rw [pure_bind, pure_bind]
    exact put v

/-- A value that is stored under a declared type is converted to it; the heap is left as the conversion leaves it. -/
def Converter.Stores (c : Converter) (ty : Option Ty) (v : Value) (h : Heap) (w : Value) (h' : Heap) : Prop :=
  match ty with
  | some ty => c.convert v ty h = .ok w h'
  | none => w = v ∧ h' = h

/-- A slot that was written holds what was stored, converted to its type. -/
theorem Store.assign_eq_ok {converter : Converter} {slot : SlotId} {v w : Value} {st st' : Store}
    (h : Store.assign converter slot v st = .ok w st') :
    ∃ heap, converter.Stores (st.binding slot).ty v st.heap w heap ∧ st' = { st with heap }.withValue slot w := by
  rw [assign, Run.get_bind] at h
  cases hty : (st.binding slot).ty with
  | some ty =>
    rw [hty] at h
    obtain ⟨stored, st₁, hstored, hrest⟩ := Run.bind_eq_ok.mp h
    obtain ⟨heap, hconvert, rfl⟩ := onHeap_eq_ok.mp hstored
    cases hrest
    exact ⟨heap, hconvert, rfl⟩
  | none =>
    rw [hty] at h
    cases h
    exact ⟨st.heap, ⟨rfl, rfl⟩, rfl⟩

theorem EvalM.onStore_storeName (f : Frame) (name : String) (register : Option Nat) (insert : Bool) :
    EvalM.onStore locate (f.storeName name v register insert) = (do
      let m ← Run.get
      match m.store.resolve? f.scope name with
      | some slot => EvalM.onStore locate (Store.assign f.runtime.converter slot v)
      | none =>
        match ← EvalM.onHeap locate (f.writeReceiver name v insert) with
        | some stored => pure stored
        | none => do
          let _ ← EvalM.stepStore fun st => st.createIn (f.bindingChain st) name ⟨v, none⟩ register
          pure v) := by
  unfold Frame.storeName
  rw [EvalM.onStore_get]
  refine congrArg (Run.get >>= ·) (funext fun m => ?_)
  cases m.store.resolve? f.scope name with
  | some slot => rfl
  | none =>
    dsimp only
    rw [EvalM.onStore_bind]
    refine congrArg (EvalM.onHeap locate _ >>= ·) (funext fun stored => ?_)
    cases stored with
    | some stored => exact EvalM.onStore_pure locate stored
    | none =>
      dsimp only
      rw [EvalM.onStore_bind, EvalM.onStore_step]
      simp only [EvalM.onStore_pure]

end Storing

/-! ## Scopes -/

namespace Eval

variable {α : Type} (f : Frame) (k : Frame → EvalM α)

theorem inScope_bind (kind : ScopeKind) (cells : List (String × Option SlotId)) :
    inScope f kind cells >>= k = EvalM.stepStore (fun st => st.push kind cells f.scope) >>= fun scope =>
      k { f with scope } := by
  simp only [inScope, bind_assoc, pure_bind]

theorem inItem_bind (name : String) (b : Binding) :
    (EvalM.stepStore (fun st => st.newSlot b) >>= fun slot => inScope f .item [(name, some slot)] >>= k) =
      EvalM.stepStore (fun st => st.pushItem f.scope name b) >>= fun scope => k { f with scope } := by
  simp only [inScope_bind]
  rw [← bind_assoc, EvalM.stepStore_stepStore]
  rfl

end Eval

/-! ## Relations that every change of the store keeps -/

/-- The ways in which evaluation in a frame binds new names. -/
inductive Frame.Binds (f : Frame) (Bindable : Binding → Prop) : {α : Type} → (Store → α × Store) → Prop
  | create {place : Store → Chain} (hplace : place ∈ [fun _ => f.scope, f.bindingChain]) (name : String) {b : Binding}
    (hb : Bindable b) (register : Option Nat) : f.Binds Bindable fun st => st.createIn (place st) name b register
  | importInto (name : String) (v : Value) : f.Binds Bindable fun st => st.importInto f.scope name v

/-- The ways in which evaluation in a frame opens scopes. -/
inductive Frame.Opens (f : Frame) (Bindable : Binding → Prop) : (Store → Chain × Store) → Prop
  | block : f.Opens Bindable fun st => st.push .block [] f.scope
  | item (name : String) {b : Binding} (hb : Bindable b) : f.Opens Bindable fun st => st.pushItem f.scope name b
  | call {fn : Function} (hfn : fn ∈ f.world.functions) :
    f.Opens Bindable fun st => st.push .indexed (fn.registers.map fun name => (name, none)) f.root

namespace Lockstep

/-- A relation between evaluations in the same frames that keeps whatever is changed in the stores, and does not depend
on what is remembered. -/
structure Upkeep (L : Lockstep) : Prop where
  frames : ∀ {i f f'}, L.Frames i f f' → f' = f
  frames_mono : ∀ {i j f f'}, L.le i j → L.Frames i f f' → L.Frames j f f'
  with_this : ∀ {i f}, L.Frames i f f → ∀ this, L.Frames i { f with this } { f with this }
  deeper : ∀ {i f}, L.Frames i f f → f.depth + 1 ≤ f.runtime.config.maxCallDepth →
    L.Frames i { f with depth := f.depth + 1 } { f with depth := f.depth + 1 }
  inside : ∀ n, L.Inside n
  evaluates : ∀ fuel, L.Evaluates (Eval.node fuel) (Eval.node fuel)
  bindable_untyped : ∀ v, L.Bindable ⟨v, none⟩
  bindable_converted : ∀ {i f v w ty h h'}, L.Frames i f f → f.runtime.converter.convert v ty h = .ok w h' →
    L.Bindable (.of w (some ty))
  accel : ∀ {i m m'}, L.Alike i m m' → m'.accel = m.accel
  returned : ∀ {i m m'}, L.Alike i m m' → m'.returned = m.returned
  heap : ∀ {i m m'}, L.Alike i m m' → m'.store.heap = m.store.heap
  with_accel : ∀ {i m m'}, L.Alike i m m' → ∀ accel, L.Alike i { m with accel } { m' with accel }
  with_returned : ∀ {i m m'}, L.Alike i m m' → ∀ returned, L.Alike i { m with returned } { m' with returned }
  with_heap : ∀ {i m m'}, L.Alike i m m' → ∀ h, L.Alike i (m.withHeap h) (m'.withHeap h)
  report : ∀ {i f m m'}, L.Frames i f f → L.Alike i m m' → ∀ line,
    L.Alike i { m with events := ⟨f.runtime.sourceName, line, f.scope, m.store⟩ :: m.events }
      { m' with events := ⟨f.runtime.sourceName, line, f.scope, m'.store⟩ :: m'.events }
  resolve : ∀ {i f m m'}, L.Frames i f f → L.Alike i m m' → ∀ name,
    m'.store.resolve? f.scope name = m.store.resolve? f.scope name
  /-- Slots that a name of the frame stands for. -/
  slot : ∀ {i f m m' name slot}, L.Frames i f f → L.Alike i m m' → m.store.resolve? f.scope name = some slot →
    m'.store.binding slot = m.store.binding slot
  write : ∀ {i f m m' name slot v h w h'}, L.Frames i f f → L.Alike i m m' →
    m.store.resolve? f.scope name = some slot → f.runtime.converter.Stores (m.store.binding slot).ty v h w h' →
    ∃ j, L.le i j ∧ L.Alike j { m with store := m.store.withValue slot w } { m' with store := m'.store.withValue slot w }
  binds : ∀ {i f m m'} {α : Type} {g : Store → α × Store}, L.Frames i f f → L.Alike i m m' → f.Binds L.Bindable g →
    (g m'.store).1 = (g m.store).1 ∧ ∃ j, L.le i j ∧
      L.Alike j { m with store := (g m.store).2 } { m' with store := (g m'.store).2 }
  opens : ∀ {i f m m'} {g : Store → Chain × Store}, L.Frames i f f → L.Alike i m m' → f.Opens L.Bindable g →
    (g m'.store).1 = (g m.store).1 ∧ ∃ j, L.le i j ∧
      L.Frames j { f with scope := (g m.store).1 } { f with scope := (g m.store).1 } ∧
      L.Alike j { m with store := (g m.store).2 } { m' with store := (g m'.store).2 }

namespace Upkeep

variable {L : Lockstep} (hL : L.Upkeep) {i : L.Index} {f : Frame} {m m' : Machine} {α : Type}
  {locate : Fault → EvalError} {name : String} {v : Value}
include hL

theorem onHeap (x : HeapM α) : L.Sim i (EvalM.onHeap locate x) (EvalM.onHeap locate x) :=
  .onHeap hL.heap hL.with_heap locate x

theorem binding (hf : L.Frames i f f) {g : Store → α × Store} (hg : f.Binds L.Bindable g) :
    L.Sim i (EvalM.stepStore g) (EvalM.stepStore g) := by
  intro j hj m m' hm
  obtain ⟨hvalue, n, hn, halike⟩ := hL.binds (hL.frames_mono hj hf) hm hg
  rw [EvalM.stepStore_apply, EvalM.stepStore_apply, hvalue]
  exact .ok hn halike

theorem opening (hf : L.Frames i f f) {g : Store → Chain × Store} (hg : f.Opens L.Bindable g) {k k' : Chain → EvalM α}
    (hk : ∀ j scope, L.le i j → L.Frames j { f with scope } { f with scope } → L.Sim j (k scope) (k' scope)) :
    L.Sim i (EvalM.stepStore g >>= k) (EvalM.stepStore g >>= k') :=
  .stepStore (fun _ _ _ hj hm => hL.opens (hL.frames_mono hj hf) hm hg) hk

theorem assign (hf : L.Frames i f f) (hm : L.Alike i m m') {slot : SlotId}
    (hslot : m.store.resolve? f.scope name = some slot) :
    L.Joined i (EvalM.onStore locate (Store.assign f.runtime.converter slot v) m)
      (EvalM.onStore locate (Store.assign f.runtime.converter slot v) m') := by
  rw [EvalM.onStore_assign, Run.bind_ok (Run.get_apply m), Run.bind_ok (Run.get_apply m'), hL.slot hf hm hslot]
  cases hty : (m.store.binding slot).ty with
  | none =>
    obtain ⟨j, hj, halike⟩ := hL.write (v := v) (h := m.store.heap) hf hm hslot (by rw [hty]; exact ⟨rfl, rfl⟩)
    exact .ok hj halike
  | some ty =>
    dsimp only
    rw [Run.bind_apply, Run.bind_apply, EvalM.onHeap_apply, EvalM.onHeap_apply, hL.heap hm]
    cases hconvert : f.runtime.converter.convert v ty m.store.heap with
    | ok w h =>
      have hstores : f.runtime.converter.Stores (m.store.binding slot).ty v m.store.heap w h := by rw [hty]; exact hconvert
      obtain ⟨j, hj, halike⟩ := hL.write hf (hL.with_heap hm h) hslot hstores
      exact .ok hj halike
    | error e h => exact .error (L.le_refl i) (L.error_refl _) fun _ => hL.with_heap hm h
    | diverged => exact .diverged

theorem storeName (hf : L.Frames i f f) {register register' : Option Nat} (insert : Bool)
    (hcreate : L.Sim i (EvalM.stepStore fun st => st.createIn (f.bindingChain st) name ⟨v, none⟩ register)
      (EvalM.stepStore fun st => st.createIn (f.bindingChain st) name ⟨v, none⟩ register')) :
    L.Sim i (EvalM.onStore locate (f.storeName name v register insert))
      (EvalM.onStore locate (f.storeName name v register' insert)) := by
  intro j hj m m' hm
  rw [EvalM.onStore_storeName, EvalM.onStore_storeName, Run.bind_ok (Run.get_apply m), Run.bind_ok (Run.get_apply m'),
    hL.resolve (hL.frames_mono hj hf) hm]
  cases hfound : m.store.resolve? f.scope name with
  | some slot => exact hL.assign (hL.frames_mono hj hf) hm hfound
  | none =>
    refine (hL.onHeap _).bind (fun stored => ?_) j hj m m' hm
    cases stored with
    | some stored => exact .pure _
    | none => exact hcreate.bind fun _ => .pure _

theorem lawful : L.Lawful where
  frames_mono := hL.frames_mono
  frames_eq := fun hf => ⟨_, hL.frames hf⟩
  with_this := fun hf this => by cases hL.frames hf; exact hL.with_this hf this
  deeper := fun hf hd => by cases hL.frames hf; exact hL.deeper hf hd
  inside_own := fun _ _ => hL.inside _
  inside_function := fun _ _ => hL.inside _
  evaluates := hL.evaluates
  heap := hL.heap
  with_heap := hL.with_heap
  returned := hL.returned
  with_returned := hL.with_returned
  lookup := fun {_ f _ m _} hf hm name => by
    cases hL.frames hf
    unfold Store.lookup?
    rw [hL.resolve hf hm name]
    cases hslot : m.store.resolve? f.scope name with
    | none => rfl
    | some slot => exact congrArg (fun b => some b.value) (hL.slot hf hm hslot)
  report := fun hf info => by
    cases hL.frames hf
    unfold EvalM.report
    split
    · exact fun j hj m m' hm => .ok (L.le_refl j) (hL.report (hL.frames_mono hj hf) hm _)
    · exact .pure ()
  storeName := fun hf _ name v register insert => by
    cases hL.frames hf
    exact hL.storeName hf insert (hL.binding hf (.create (by simp) name (hL.bindable_untyped v) register))
  bindable_untyped := hL.bindable_untyped
  bindable_converted := fun hf => by cases hL.frames hf; exact hL.bindable_converted hf
  createIn := fun hf name _ hb register => by
    cases hL.frames hf
    exact hL.binding hf (.create List.mem_cons_self name hb register)
  createAt := fun hf k name _ hb => by
    cases hL.frames hf
    simp only [Store.createAt_eq_createIn]
    exact hL.binding hf (.create List.mem_cons_self name hb (some k))
  importInto := fun hf name v => by cases hL.frames hf; exact hL.binding hf (.importInto name v)
  inBlock := fun hf hk => by
    cases hL.frames hf
    rw [Eval.inScope_bind, Eval.inScope_bind]
    exact hL.opening hf .block fun j scope hj hframe => hk j _ _ hj hframe
  inItem := fun hf name _ hb hk => by
    cases hL.frames hf
    rw [Eval.inItem_bind, Eval.inItem_bind]
    exact hL.opening hf (.item name hb) fun j scope hj hframe => hk j _ _ hj hframe
  inCall := fun hf _ hfn hk => by cases hL.frames hf; exact hL.opening hf (.call hfn) hk

theorem sites : L.Sites := by
  have harmless : ∀ g, L.Harmless g := fun g _ m m' hm => by
    rw [hL.accel hm]
    exact hL.with_accel hm _
  exact SameMemory.sites_of_harmless ⟨⟨hL.frames, hL.accel⟩, fun _ => harmless _⟩ hL.lawful.toLocal harmless

end Upkeep

end Lockstep

/-! ## Sound frames -/

/-- The scopes of a frame are among the first so many, and it is not nested deeper than calls may be. -/
structure Frame.Sound (f : Frame) (scopes : Nat) : Prop where
  scope : ∀ id ∈ f.scope, id < scopes
  root : ∀ id ∈ f.root, id < scopes
  depth : f.depth ≤ f.runtime.config.maxCallDepth

/-- A property of frames and the scopes there are, which the frames have too that evaluation makes of such frames. They
create no names in certain scopes. -/
structure Placing (Kept : ScopeId → Prop) (Place : Table Scope → Frame → Prop) : Prop where
  mono : ∀ {t t' f}, t.Grows t' → Place t f → Place t' f
  with_this : ∀ {t f}, Place t f → ∀ this, Place t { f with this }
  deeper : ∀ {t f}, Place t f → f.depth + 1 ≤ f.runtime.config.maxCallDepth → Place t { f with depth := f.depth + 1 }
  inner : ∀ {t f}, Place t f → ∀ s : Scope, s.kind = .block ∨ s.kind = .item →
    Place (t.alloc s).2 { f with scope := t.size :: f.scope }
  call : ∀ {t f}, Place t f → ∀ fn ∈ f.world.functions,
    Place (t.alloc ⟨.indexed, fn.registers.map fun name => (name, none)⟩).2 { f with scope := t.size :: f.root }
  creates : ∀ {st : Store} {f}, Place st.scopes f → ∀ chain ∈ [f.scope, f.bindingChain st], ∀ id,
    st.creationScope chain = some id → ¬ Kept id

/-- An evaluation and itself: stores are sound, names stay what they are, and frames have a property. -/
def growth (Kept : ScopeId → Prop) (Place : Table Scope → Frame → Prop) : Lockstep :=
  .self (Names.Grows Kept) .refl .trans (fun i m => m.store.Sound ∧ m.store.names = i) (fun i => Place i.scopes)
    fun _ => True

namespace Growth

variable {Kept : ScopeId → Prop} {Place : Table Scope → Frame → Prop} {i : Names} {f f' : Frame} {α : Type}

theorem upkeep (hP : Placing Kept Place) : (growth Kept Place).Upkeep where
  frames := fun h => h.1
  frames_mono := fun hj h => ⟨h.1, hP.mono hj.scopes h.2⟩
  with_this := fun h this => ⟨rfl, hP.with_this h.2 this⟩
  deeper := fun h hd => ⟨rfl, hP.deeper h.2 hd⟩
  inside := fun _ => trivial
  evaluates := fun _ => trivial
  bindable_untyped := fun _ => trivial
  bindable_converted := fun _ _ => trivial
  accel := fun h => by rw [h.1]
  returned := fun h => by rw [h.1]
  heap := fun h => by rw [h.1]
  with_accel := fun h _ => ⟨by rw [h.1], h.2⟩
  with_returned := fun h _ => ⟨by rw [h.1], h.2⟩
  with_heap := fun h _ => ⟨by rw [h.1], ⟨h.2.1.inBounds, h.2.1.apart⟩, h.2.2⟩
  report := fun _ h _ => ⟨by rw [h.1], h.2⟩
  resolve := fun _ h _ => by rw [h.1]
  slot := fun _ h _ => by rw [h.1]
  write := by
    rintro i f _ m name slot v h w h' - ⟨rfl, hsound, rfl⟩ - -
    exact ⟨_, .withValue m.store slot w, rfl, hsound.withValue slot w, rfl⟩
  binds := by
    rintro i f _ m α g ⟨-, hf⟩ ⟨rfl, hsound, rfl⟩ hg
    refine ⟨rfl, (g m.store).2.names, ?_⟩
    cases hg with
    | create hplace name _ register =>
      have hcreates := hP.creates hf _ (List.mem_map_of_mem (f := fun place => place m.store) hplace)
      exact ⟨.createIn hcreates name _ register, rfl, hsound.createIn _ name _ register, rfl⟩
    | importInto name v => exact ⟨.importInto _ f.scope name v, rfl, hsound.importInto f.scope name v, rfl⟩
  opens := by
    rintro i f _ m g ⟨-, hf⟩ ⟨rfl, hsound, rfl⟩ hg
    refine ⟨rfl, (g m.store).2.names, ?_⟩
    cases hg with
    | block =>
      exact ⟨.push .., ⟨rfl, hP.inner hf ⟨.block, []⟩ (.inl rfl)⟩, rfl,
        hsound.push .block f.scope (by simp [Scope.slots]), rfl⟩
    | item name =>
      exact ⟨.pushItem .., ⟨rfl, hP.inner hf ⟨.item, _⟩ (.inr rfl)⟩, rfl, hsound.pushItem f.scope name _, rfl⟩
    | call hfn =>
      exact ⟨.push .., ⟨rfl, hP.call hf _ hfn⟩, rfl,
        hsound.push .indexed f.root (by simp [Scope.slots]), rfl⟩

theorem lawful (hP : Placing Kept Place) : (growth Kept Place).Lawful := (upkeep hP).lawful

theorem sites (hP : Placing Kept Place) : (growth Kept Place).Sites := (upkeep hP).sites

end Growth

namespace Frame.Sound

variable {f : Frame} {t : Table Scope}

theorem pushed (h : f.Sound t.size) {chain : Chain} (hchain : ∀ id ∈ chain, id < t.size) (s : Scope) :
    Frame.Sound { f with scope := t.size :: chain } (t.alloc s).2.size := by
  rw [Table.size_alloc]
  refine ⟨fun id hid => ?_, fun id hid => Nat.lt_succ_of_lt (h.root id hid), h.depth⟩
  rcases List.mem_cons.mp hid with rfl | hid
  · exact Nat.lt_succ_self _
  · exact Nat.lt_succ_of_lt (hchain id hid)

theorem placing : Placing (fun _ => False) fun t f => f.Sound t.size where
  mono := fun ht h => ⟨fun id hid => Nat.lt_of_lt_of_le (h.scope id hid) ht.size,
    fun id hid => Nat.lt_of_lt_of_le (h.root id hid) ht.size, h.depth⟩
  with_this := fun h _ => ⟨h.scope, h.root, h.depth⟩
  deeper := fun h hd => ⟨h.scope, h.root, hd⟩
  inner := fun h s _ => h.pushed h.scope s
  call := fun h _ _ => h.pushed h.root _
  creates := fun _ _ _ _ _ => id

end Frame.Sound

/-! ## Evaluation meets nothing else -/

namespace Eval

open Classical in
/-- One way to evaluate where a condition holds, and another where it does not. Literals are out of the question: they
are what they are everywhere. -/
noncomputable def within (ok : Frame → Machine → Prop) (beyond ev : Evaluator) : Evaluator := fun f n m =>
  match n.kind with
  | .literal v => .ok v m
  | _ => if ok f m then ev f n m else beyond f n m

/-- A node, with fuel, where a condition holds of every frame and machine that is met; where it does not hold, anything
else can happen. -/
noncomputable def nodeWithin (ok : Frame → Machine → Prop) (beyond : Evaluator) : Nat → Evaluator
  | 0 => within ok beyond (node 0)
  | fuel + 1 => within ok beyond (step (nodeWithin ok beyond fuel) fuel)

variable {ok : Frame → Machine → Prop} {beyond : Evaluator}

theorem within_literal {ev : Evaluator} {f : Frame} {n : Node} {v : Value} (h : n.kind = .literal v) :
    within ok beyond ev f n = pure v := by
  funext m
  simp only [within, h, Run.pure_apply]

theorem within_of {ev : Evaluator} {f : Frame} {n : Node} {m : Machine} (h : ∀ v, n.kind ≠ .literal v) (hok : ok f m) :
    within ok beyond ev f n m = ev f n m := by
  unfold within
  split
  next v hk => exact absurd hk (h v)
  next => rw [if_pos hok]

end Eval

namespace Lockstep

variable {L : Lockstep}

/-- An evaluator that goes its own way only where a condition fails is in lockstep with evaluation, if the condition holds
wherever the two are. -/
theorem Lawful.guarded (hL : L.Lawful) (hS : L.Sites) (guard : Evaluator → Evaluator) {guarded : Nat → Evaluator}
    (hev : ∀ ev ev', L.Evaluates ev ev') (hzero : guarded 0 = guard (Eval.node 0))
    (hsucc : ∀ fuel, guarded (fuel + 1) = guard (Eval.step (guarded fuel) fuel))
    (hliteral : ∀ {ev f n v}, n.kind = .literal v → guard ev f n = pure v)
    (hmet : ∀ {ev i f f' n m m' o}, (∀ v, n.kind ≠ .literal v) → L.Frames i f f' → L.Alike i m m' →
      L.Joined i o (ev f' n m') → guard ev f' n m' = ev f' n m') (fuel : Nat) :
    L.Evaluators (Eval.node fuel) (guarded fuel) := by
  -- Where the condition holds, the two do the same with parts that do alike.
  have met : ∀ {fuel} {ev' : Evaluator},
      (∀ {i f f' n}, L.Frames i f f' → L.Inside n → L.Sim i (Eval.node fuel f n) (ev' f' n)) →
      L.Evaluators (Eval.node fuel) (guard ev') := by
    intro fuel ev' hsim
    refine ⟨fun {i f f' n} hf hn j hj m m' hm => ?_, hev _ _⟩
    by_cases hk : ∃ v, n.kind = .literal v
    · obtain ⟨v, hv⟩ := hk
      rw [node_literal hv, hliteral hv]
      exact .ok (L.le_refl j) hm
    · have hjoined := hsim hf hn j hj m m' hm
      rwa [hmet (fun v hv => hk ⟨v, hv⟩) (hL.frames_mono hj hf) hm hjoined]
  induction fuel with
  | zero => exact hzero ▸ met (hL.node hS 0).sim
  | succ fuel ih => exact hsucc fuel ▸ met fun hf hn => hL.step ih hf hS hL.crossings fuel hn

/-- If a condition holds of all frames and machines in a relation, nothing else is met. -/
theorem Lawful.nodeWithin (hL : L.Lawful) (hS : L.Sites) (hev : ∀ ev ev', L.Evaluates ev ev') {ok : Frame → Machine → Prop}
    (hok : ∀ {i f f' m m'}, L.Frames i f f' → L.Alike i m m' → ok f' m') (beyond : Evaluator) (fuel : Nat) :
    L.Evaluators (Eval.node fuel) (Eval.nodeWithin ok beyond fuel) :=
  hL.guarded hS (Eval.within ok beyond) hev rfl (fun _ => rfl) Eval.within_literal
    (fun hk hf hm _ => Eval.within_of hk (hok hf hm)) fuel

end Lockstep

/-- The frame and the store of the machine are sound. -/
def Frame.SoundIn (f : Frame) (m : Machine) : Prop := m.store.Sound ∧ f.Sound m.store.scopes.size

namespace Growth

variable {Kept : ScopeId → Prop} {Place : Table Scope → Frame → Prop} {f : Frame} {m : Machine}

/-- An evaluation that starts in a frame with such a property would be the same if it were another in every frame
without. -/
theorem node_eq_nodeWithin (hP : Placing Kept Place) {ok : Frame → Machine → Prop}
    (hok : ∀ {f m}, m.store.Sound → Place m.store.scopes f → ok f m) (hst : m.store.Sound) (hf : Place m.store.scopes f)
    (beyond : Evaluator) (fuel : Nat) (n : Node) : Eval.nodeWithin ok beyond fuel f n m = Eval.node fuel f n m := by
  have hevaluators : (growth Kept Place).Evaluators (Eval.node fuel) (Eval.nodeWithin ok beyond fuel) := by
    refine (lawful hP).nodeWithin (sites hP) (fun _ _ => trivial) (fun {i f f' m m'} hf hm => ?_) beyond fuel
    obtain ⟨rfl, hplace⟩ : f' = f ∧ Place i.scopes f := hf
    obtain ⟨rfl, hstore, rfl⟩ : m' = m ∧ m.store.Sound ∧ m.store.names = i := hm
    exact hok hstore hplace
  exact Lockstep.Joined.eq_of_self
    (hevaluators.sim (i := m.store.names) ⟨rfl, hf⟩ trivial m.store.names (.refl _) m m ⟨rfl, hst, rfl⟩)

end Growth

/-- An evaluation that starts in a sound frame would be the same if it were another in every frame that is not. -/
theorem Frame.SoundIn.node_eq_nodeWithin {f : Frame} {m : Machine} (h : f.SoundIn m) (beyond : Evaluator) (fuel : Nat)
    (n : Node) : Eval.nodeWithin Frame.SoundIn beyond fuel f n m = Eval.node fuel f n m :=
  Growth.node_eq_nodeWithin Frame.Sound.placing .intro h.1 h.2 beyond fuel n

/-! ## Engines -/

namespace Engine

variable {e e' : Engine} {vars : Option Variables}

theorem importAll_induction {P : Store → Prop} (chain : Chain)
    (himport : ∀ {st : Store} name v, P st → P (st.importInto chain name v).2) (entries : List (String × Value)) {st : Store}
    (h : P st) : P (entries.foldl (fun st (name, v) => (st.importInto chain name v).2) st) := by
  induction entries generalizing st with
  | nil => exact h
  | cons entry rest ih => exact ih (himport entry.1 entry.2 h)

/-- An evaluation from outside starts with what new scopes and imports keep. -/
theorem rootChain_induction {P : Store → Prop} (hpush : ∀ {st : Store} kind chain, P st → P (st.push kind [] chain).2)
    (himport : ∀ {st : Store} chain name v, P st → P (st.importInto chain name v).2) (imports : Dict Value) {st : Store}
    (h : P st) : P (rootChain imports vars st).2 := by
  cases vars with
  | some v => exact importAll_induction _ (himport _) _ (hpush .imports [v.scope] h)
  | none => exact importAll_induction _ (himport _) _ (hpush .imports [st.scopes.size] (hpush .global [] h))

theorem scopes_size_le_rootChain (imports : Dict Value) (st : Store) :
    st.scopes.size ≤ (rootChain imports vars st).2.scopes.size := by
  refine rootChain_induction (P := fun st' => st.scopes.size ≤ st'.scopes.size) (fun kind chain h => ?_)
    (fun chain name v h => ?_) imports (Nat.le_refl _)
  · rw [Store.push, Table.size_alloc]
    exact Nat.le_succ_of_le h
  · rw [Store.scopes_size_importInto]
    exact h

/-- The scopes of an evaluation from outside are those of the variables, and new ones. -/
theorem mem_rootChain {imports : Dict Value} {st : Store} {id : ScopeId} (hid : id ∈ (rootChain imports vars st).1) :
    (∃ v ∈ vars, v.scope = id) ∨ st.scopes.size ≤ id ∧ id < (rootChain imports vars st).2.scopes.size := by
  have size : ∀ (v : Variables) (st : Store), (rootChain imports (some v) st).2.scopes.size = st.scopes.size + 1 := by
    intro v st
    refine importAll_induction (P := fun st' => st'.scopes.size = st.scopes.size + 1) _ (fun name v h => ?_) _
      (Table.size_alloc ..)
    rw [Store.scopes_size_importInto, h]
  cases vars with
  | some v =>
    have hid : id = st.scopes.size ∨ id = v.scope := by simpa [rootChain, Store.push] using hid
    rcases hid with rfl | rfl
    · exact .inr ⟨Nat.le_refl _, size v st ▸ Nat.lt_succ_self _⟩
    · exact .inl ⟨v, rfl, rfl⟩
  | none =>
    have hsize : (rootChain imports none st).2.scopes.size = st.scopes.size + 2 :=
      (size ⟨st.scopes.size⟩ (Variables.new st).2).trans (congrArg (· + 1) (Table.size_alloc ..))
    have hid : id = st.scopes.size + 1 ∨ id = st.scopes.size := by simpa [rootChain, Store.push, Variables.new] using hid
    rw [hsize]
    rcases hid with rfl | rfl
    · exact .inr ⟨Nat.le_succ _, Nat.lt_succ_self _⟩
    · exact .inr ⟨Nat.le_refl _, Nat.lt_add_of_pos_right Nat.two_pos⟩

end Engine

end PathScript
