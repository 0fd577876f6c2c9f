import PathScript.Proofs.Acceleration.History
import PathScript.Proofs.Sound

/-! # The shape of frames

Every chain of scopes ends in the same two: that of imported names, and behind
it the variables of the caller. At top level these are all; a call has its
registers in front of them, and each block and each item of a loop a scope in
front of the others. Evaluation never changes the kind of a scope, nor binds a
name twice in the registers of a call, so a frame keeps its shape, and the
frames that are made of it have theirs. -/

namespace PathScript

/-! ## Names of a scope -/

namespace Entries

variable {α : Type} {es : List (String × α)} {k : String} {i : Nat}

theorem set_eq_put (h : (es[i]?).map (·.1) = some k) (hkeys : (keys es).Nodup) (v : α) :
    es.set i (k, v) = put k v es := by
  induction es generalizing i with
  | nil => cases h
  | cons e rest ih =>
    obtain ⟨hfresh, hrest⟩ := List.nodup_cons.mp hkeys
    cases i with
    | zero =>
      have hk : e.1 = k := Option.some.inj h
      rw [List.set_cons_zero, put, if_pos hk]
    | succ i =>
      have hi : (rest[i]?).map (·.1) = some k := h
      have hne : e.1 ≠ k := by
        rintro rfl
        obtain ⟨e', he', hk⟩ := Option.map_eq_some_iff.mp hi
        exact hfresh (List.mem_map.mpr ⟨e', List.mem_of_getElem? he', hk⟩)
      rw [List.set_cons_succ, put, if_neg hne, ih hi hrest]

end Entries

namespace Scope

variable {s : Scope} {name : String} {slot : SlotId}

theorem local?_bind (x : String) : (s.bind name slot).local? x = if name = x then some slot else s.local? x := by
  rw [local?, bind, Entries.find?_put]
  split <;> rfl

theorem bindAt_eq_bind (h : s.Distinct) (i : Nat) : s.bindAt i name slot = s.bind name slot := by
  unfold bindAt
  split
  next hi => rw [bind, Entries.set_eq_put (beq_iff_eq.mp ((Bool.and_eq_true _ _).mp hi).2) h]
  next => rfl

end Scope

namespace Store

variable {st : Store} {chain : Chain} {id : ScopeId} {name : String} {s : Scope} {slot : SlotId}

/-- A chain that binds by register does so in its first scope. -/
theorem kind_of_kindOf (h : st.creationScope chain = some id) (hkind : st.kindOf chain = .indexed) :
    (st.scope id).kind = .indexed := by
  cases chain with
  | nil => cases hkind
  | cons head rest =>
    obtain rfl : head = id := Option.some.inj ((creationScope_of_kindOf hkind).symm.trans h)
    exact hkind

theorem binder_eq_bind (register : Option Nat) (h : st.kindOf chain = .indexed → s.Distinct) :
    st.binder chain name register slot s = s.bind name slot := by
  unfold binder
  cases register with
  | none => rfl
  | some i =>
    dsimp only
    split
    next hkind => exact Scope.bindAt_eq_bind (h hkind) i
    next => rfl

/-- However a chain binds a name, the scope has it at that slot, and its other names as before. By register this takes
that names are distinct. -/
theorem local?_binder (register : Option Nat) (h : st.kindOf chain = .indexed → s.Distinct) (x : String) :
    (st.binder chain name register slot s).local? x = if name = x then some slot else s.local? x := by
  rw [binder_eq_bind register h, Scope.local?_bind]

end Store

/-! ## Formed frames -/

namespace Chain

/-- The chains over those of the root: the root itself, the registers of a call in front of it, and blocks and items in
front of others. -/
inductive Formed (t : Table Scope) (root : Chain) : Chain → Prop where
  | top : Formed t root root
  | call {id : ScopeId} (isCall : (t.scope id).kind = .indexed) (distinct : (t.scope id).Distinct) :
      Formed t root (id :: root)
  | inner {id : ScopeId} {chain : Chain} (isInner : (t.scope id).kind = .block ∨ (t.scope id).kind = .item)
      (outer : Formed t root chain) : Formed t root (id :: chain)

variable {t t' : Table Scope} {root chain : Chain}

theorem Formed.mono (h : Formed t root chain) (ht : t.Grows t') (hchain : ∀ id ∈ chain, id < t.size) :
    Formed t' root chain := by
  induction h with
  | top => exact .top
  | @call id isCall distinct =>
    have hid := hchain id (List.mem_cons_self ..)
    exact .call ((ht.kind id hid).trans isCall) (ht.distinct id hid distinct)
  | @inner id chain isInner _ ih =>
    have hid := hchain id (List.mem_cons_self ..)
    exact .inner (by rwa [ht.kind id hid]) (ih fun id' hid' => hchain id' (List.mem_cons_of_mem _ hid'))

theorem Formed.root_mem (h : Formed t root chain) {id : ScopeId} (hid : id ∈ root) : id ∈ chain := by
  induction h with
  | top => exact hid
  | call => exact List.mem_cons_of_mem _ hid
  | inner _ _ ih => exact List.mem_cons_of_mem _ ih

end Chain

/-- A frame whose scopes are there and are of the kinds that evaluation makes. -/
structure Frame.Formed (f : Frame) (t : Table Scope) : Prop where
  inBounds : ∀ id ∈ f.scope, id < t.size
  root : ∃ imports vars, f.root = [imports, vars] ∧ (t.scope imports).kind = .imports ∧ (t.scope vars).kind = .global
  scope : Chain.Formed t f.root f.scope

/-- A formed frame in a sound store. -/
structure Frame.FormedIn (f : Frame) (st : Store) : Prop where
  store : st.Sound
  frame : f.Formed st.scopes

/-- The registers of each function are distinct. -/
def World.Distinct (w : World) : Prop := ∀ fn ∈ w.functions, fn.registers.Nodup

namespace Frame.Formed

variable {f : Frame} {t t' : Table Scope}

theorem root_lt (h : f.Formed t) (id : ScopeId) (hid : id ∈ f.root) : id < t.size :=
  h.inBounds id (h.scope.root_mem hid)

theorem mono (h : f.Formed t) (ht : t.Grows t') : f.Formed t' where
  inBounds id hid := Nat.lt_of_lt_of_le (h.inBounds id hid) ht.size
  root := by
    obtain ⟨imports, vars, hroot, himports, hvars⟩ := h.root
    refine ⟨imports, vars, hroot, ?_, ?_⟩
    · rw [ht.kind imports (h.root_lt imports (by simp [hroot])), himports]
    · rw [ht.kind vars (h.root_lt vars (by simp [hroot])), hvars]
  scope := h.scope.mono ht h.inBounds

/-- Only the registers of a call are bound by register, and their names are distinct. -/
theorem distinct (h : f.Formed t) {id : ScopeId} (hid : id ∈ f.scope) (hkind : (t.scope id).kind = .indexed) :
    (t.scope id).Distinct := by
  obtain ⟨imports, vars, hroot, himports, hvars⟩ := h.root
  have houter : id ∉ f.root := fun hmem => by
    rw [hroot] at hmem
    rcases List.mem_pair.mp hmem with rfl | rfl
    · cases hkind.symm.trans himports
    · cases hkind.symm.trans hvars
  have hscope := h.scope
  generalize f.scope = chain at hscope hid
  induction hscope with
  | top => exact absurd hid houter
  | call _ distinct =>
    rcases List.mem_cons.mp hid with rfl | hid
    · exact distinct
    · exact absurd hid houter
  | inner isInner _ ih =>
    rcases List.mem_cons.mp hid with rfl | hid
    · rcases isInner with h | h <;> cases hkind.symm.trans h
    · exact ih hid

theorem pushed (h : f.Formed t) {chain : Chain} (hchain : ∀ id ∈ chain, id < t.size) (s : Scope)
    (hscope : Chain.Formed (t.alloc s).2 f.root (t.size :: chain)) :
    Formed { f with scope := t.size :: chain } (t.alloc s).2 := by
  refine ⟨fun id hid => ?_, (h.mono (.alloc t s)).root, hscope⟩
  rw [Table.size_alloc]
  rcases List.mem_cons.mp hid with rfl | hid
  · exact Nat.lt_succ_self _
  · exact Nat.lt_succ_of_lt (hchain id hid)

end Frame.Formed

/-! ## Evaluation keeps the shape -/

/-- Frames are formed where registers are distinct. -/
theorem Frame.Formed.placing : Placing (fun _ => False) fun t f => f.Formed t ∧ f.world.Distinct where
  mono := fun ht h => ⟨h.1.mono ht, h.2⟩
  with_this := fun h _ => ⟨⟨h.1.inBounds, h.1.root, h.1.scope⟩, h.2⟩
  deeper := fun h _ => ⟨⟨h.1.inBounds, h.1.root, h.1.scope⟩, h.2⟩
  inner := fun {t f} h s hs => by
    refine ⟨h.1.pushed h.1.inBounds s (.inner ?_ (h.1.scope.mono (.alloc t s) h.1.inBounds)), h.2⟩
    rw [Table.scope_alloc, if_pos rfl]
    exact hs
  call := fun {t f} h fn hfn => by
    have hkeys : Entries.keys (fn.registers.map fun name => (name, (none : Option SlotId))) = fn.registers := by
      rw [Entries.keys, List.map_map]
      exact List.map_id _
    refine ⟨h.1.pushed h.1.root_lt _ (.call ?_ ?_), h.2⟩ <;> rw [Table.scope_alloc, if_pos rfl]
    rw [Scope.Distinct, hkeys]
    exact h.2 fn hfn
  creates := fun _ _ _ _ _ => id

namespace Growth

variable {f : Frame} {m m' : Machine} {fuel : Nat} {n : Node}

/-- Evaluation leaves a sound store, in which what was there is what it was. -/
theorem grows_of_sim {Kept : ScopeId → Prop} {Place : Table Scope → Frame → Prop} {α : Type} {x : EvalM α}
    (hx : (growth Kept Place).Sim m.store.names x x) (h : m.store.Sound) (left : (x m).Leaves m') :
    m'.store.Sound ∧ m.store.names.Grows Kept m'.store.names := by
  obtain ⟨_, -, le, -, hsound, rfl⟩ := (hx m.store.names (.refl _) m m ⟨rfl, h, rfl⟩).leaves_left trivial left
  exact ⟨hsound, le⟩

theorem placing_true : Placing (fun _ => False) fun _ _ => True :=
  ⟨fun _ _ => trivial, fun _ _ => trivial, fun _ _ => trivial, fun _ _ _ => trivial, fun _ _ _ => trivial,
    fun _ _ _ _ _ => id⟩

theorem node_grows (h : m.store.Sound) (left : (Eval.node fuel f n m).Leaves m') :
    m'.store.Sound ∧ m.store.scopes.Grows m'.store.scopes := by
  have hnode := (lawful placing_true).node (sites placing_true) fuel
  obtain ⟨hsound, hgrows⟩ := grows_of_sim (hnode.sim ⟨rfl, trivial⟩ trivial) h left
  exact ⟨hsound, hgrows.scopes⟩

end Growth

/-! ## Engines -/

namespace Engine

variable {e e' : Engine} {vars : Option Variables} {st : Store}

end Engine

/-! ## A frame with scopes of every kind -/

/-- Variables, imports, the registers of a call, and an item of a loop. All but the last bind `x`. -/
def Store.nested : Store :=
  let vars := ((Variables.new .empty).2.createIn [0] "x" ⟨.int 1, none⟩ none).2
  let imports := ((vars.push .imports [] [0]).2.importInto [1, 0] "x" (.int 2)).2
  let call := ((imports.push .indexed [("x", none)] [1, 0]).2.createIn [2, 1, 0] "x" ⟨.int 3, none⟩ (some 0)).2
  (call.pushItem [2, 1, 0] "i" ⟨.int 4, none⟩).2

/-- The body of a loop that a function runs. -/
def Frame.nested (scoping : BlockScoping) : Frame :=
  let e : Engine := .new { Config.standard with blockScoping := scoping } fun _ => 0
  ⟨e.world, e.runtime .standard, .null, .null, [3, 2, 1, 0], [1, 0], .interpreted, false, 1⟩

theorem Store.nested_sound : Store.nested.Sound := by
  have hpush : ∀ {st : Store}, st.Sound → ∀ kind (names : List String) chain,
      (st.push kind (names.map fun name => (name, none)) chain).2.Sound :=
    fun hst kind _ chain => hst.push kind chain (by simp [Scope.slots])
  have hvars := (hpush empty_sound .global [] []).createIn [0] "x" ⟨.int 1, none⟩ none
  have himports := (hpush hvars .imports [] [0]).importInto [1, 0] "x" (.int 2)
  have hcall := (hpush himports .indexed ["x"] [1, 0]).createIn [2, 1, 0] "x" ⟨.int 3, none⟩ (some 0)
  exact hcall.pushItem [2, 1, 0] "i" ⟨.int 4, none⟩

theorem Frame.nested_formedIn (scoping : BlockScoping) : (nested scoping).FormedIn Store.nested where
  store := Store.nested_sound
  frame :=
    { inBounds := show ∀ id ∈ [3, 2, 1, 0], id < Store.nested.scopes.size by decide +kernel
      root := ⟨1, 0, rfl, by decide +kernel, by decide +kernel⟩
      scope := .inner (.inr (by decide +kernel)) (.call (by decide +kernel)
        (show (Entries.keys (Store.nested.scope 2).cells).Nodup by decide +kernel)) }

end PathScript
