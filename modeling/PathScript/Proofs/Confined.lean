import PathScript.Proofs.Declared
import PathScript.Proofs.Formed

/-! # Names of blocks

Where names belong to the block they are created in, what runs in a block
creates names in the scope of the block, in one that is further in, or in the
registers of a call. All of these are newer than the scopes around the block, so
those keep their names. Only imports go to a scope of their own. -/

namespace PathScript

/-- What stays of the scopes of a chain that are not of imports: their names, each bound to the slot it was bound to, and
the types of these slots. -/
structure Store.KeepsNames (st : Store) (chain : Chain) (st' : Store) : Prop where
  scope : ∀ id ∈ chain, (st.scope id).kind ≠ .imports → st'.scope id = st.scope id
  type : ∀ id ∈ chain, ∀ slot ∈ (st.scope id).slots, (st'.binding slot).ty = (st.binding slot).ty

/-- A frame of names that belong to their blocks, whose innermost scope is behind the first so many. -/
structure Frame.Behind (base : Nat) (f : Frame) (t : Table Scope) : Prop where
  scoping : f.runtime.config.blockScoping = .local
  le : base ≤ t.size
  inner : ∃ id outer, f.scope = id :: outer ∧ base ≤ id ∧ id < t.size ∧ (t.scope id).kind ≠ .imports

namespace Frame.Behind

variable {base : Nat} {f : Frame} {t : Table Scope}

theorem pushed (hlocal : f.runtime.config.blockScoping = .local) (h : base ≤ t.size) {s : Scope}
    (hs : s.kind ≠ .imports) (chain : Chain) : Behind base { f with scope := t.size :: chain } (t.alloc s).2 where
  scoping := hlocal
  le := by
    rw [Table.size_alloc]
    exact Nat.le_succ_of_le h
  inner := by
    refine ⟨t.size, chain, rfl, h, ?_, ?_⟩
    · rw [Table.size_alloc]
      exact Nat.lt_succ_self _
    · rw [Table.scope_alloc, if_pos rfl]
      exact hs

/-- Such frames make only such frames, and create no names in the first scopes. -/
theorem placing (base : Nat) : Placing (· < base) fun t f => f.Behind base t where
  mono := fun ht h => by
    obtain ⟨id, outer, hscope, hid, hlt, hkind⟩ := h.inner
    refine ⟨h.scoping, Nat.le_trans h.le ht.size, id, outer, hscope, hid, Nat.lt_of_lt_of_le hlt ht.size, ?_⟩
    rwa [ht.kind id hlt]
  with_this := fun h _ => ⟨h.scoping, h.le, h.inner⟩
  deeper := fun h _ => ⟨h.scoping, h.le, h.inner⟩
  inner := fun h s hs => pushed h.scoping h.le (by rcases hs with hs | hs <;> rw [hs] <;> simp) _
  call := fun h fn _ => pushed h.scoping h.le (by simp) _
  creates := fun {st f} h chain hchain id hcreate => by
    obtain ⟨head, outer, hscope, hhead, -, hkind⟩ := h.inner
    have hchain : chain = head :: outer := by
      have hbinding : f.bindingChain st = f.scope := by rw [bindingChain, h.scoping]
      simpa [hbinding, hscope] using hchain
    have hcreation : st.creationScope (head :: outer) = some head := by
      rw [Store.creationScope, List.find?_cons_of_pos]
      exact bne_iff_ne.mpr hkind
    rw [hchain, hcreation] at hcreate
    cases hcreate
    exact Nat.not_lt.mpr hhead

end Frame.Behind

namespace Names.Grows

variable {st st' : Store} {base : Nat}

theorem type_eq (h : st.names.Grows (· < base) st'.names) {slot : SlotId} (hslot : slot < st.slots.size) :
    (st'.binding slot).ty = (st.binding slot).ty := by
  have hget : st.slots.get? slot = some st.slots.cells[slot] := Array.getElem?_eq_getElem hslot
  have hty := h.types slot _ (Option.map_eq_some_iff.mpr ⟨_, hget, rfl⟩)
  obtain ⟨b, hb, hty⟩ := Option.map_eq_some_iff.mp hty
  simp only [Store.binding, hget, hb, Option.getD_some]
  exact hty

theorem keepsNames (h : st.names.Grows (· < base) st'.names) (hst : st.Sound) (hbase : base ≤ st.scopes.size)
    {chain : Chain} (hchain : ∀ id ∈ chain, id < base) : st.KeepsNames chain st' where
  scope := fun id hid hkind => h.kept id (Nat.lt_of_lt_of_le (hchain id hid) hbase) (hchain id hid) hkind
  type := fun id _ slot hslot => h.type_eq (hst.inBounds id slot hslot)

end Names.Grows

/-- Evaluation that creates names behind the first scopes. -/
abbrev confined (base : Nat) : Lockstep := growth (· < base) fun t f => f.Behind base t

namespace Confined

variable {base fuel : Nat} {f : Frame} {m m' : Machine} {α : Type} {k : Frame → EvalM α} {i : Names}

theorem lawful (base : Nat) : (confined base).Lawful := Growth.lawful (Frame.Behind.placing base)

theorem evaluators (base fuel : Nat) : (confined base).Evaluators (Eval.node fuel) (Eval.node fuel) :=
  (lawful base).node (Growth.sites (Frame.Behind.placing base)) fuel

theorem sim_pushed {g : Store → Chain × Store} (hlocal : f.runtime.config.blockScoping = .local)
    (hbase : base ≤ i.scopes.size) (hg : ∀ st, st.Sound → (g st).2.Sound ∧ st.names.Grows (· < base) (g st).2.names ∧
      (g st).1 = st.scopes.size :: f.scope ∧ ∃ s : Scope, s.kind ≠ .imports ∧ (g st).2.scopes = (st.scopes.alloc s).2)
    (hk : ∀ {j g}, (confined base).Frames j g g → (confined base).Sim j (k g) (k g)) :
    (confined base).Sim i (EvalM.stepStore g >>= fun scope => k { f with scope })
      (EvalM.stepStore g >>= fun scope => k { f with scope }) := by
  refine @Lockstep.Sim.stepStore (confined base) i _ _
    (fun j scope => (confined base).Frames j { f with scope } { f with scope }) g _ _ ?_ fun j scope _ hframe => hk hframe
  rintro j m m' (hj : i.Grows _ j) ⟨rfl, hst, rfl⟩
  obtain ⟨hsound, hnames, hchain, s, hs, hscopes⟩ := hg m'.store hst
  refine ⟨rfl, _, hnames, ⟨rfl, ?_⟩, rfl, hsound, rfl⟩
  show Frame.Behind base { f with scope := (g m'.store).1 } (g m'.store).2.scopes
  rw [hchain, hscopes]
  exact .pushed hlocal (Nat.le_trans hbase hj.scopes.size) hs f.scope

theorem sim_inBlock (hlocal : f.runtime.config.blockScoping = .local) (hbase : base ≤ i.scopes.size)
    (hk : ∀ {j g}, (confined base).Frames j g g → (confined base).Sim j (k g) (k g)) :
    (confined base).Sim i (Eval.inScope f .block [] >>= k) (Eval.inScope f .block [] >>= k) := by
  rw [Eval.inScope_bind]
  refine sim_pushed hlocal hbase (fun st hst => ?_) hk
  exact ⟨hst.push .block f.scope (by simp [Scope.slots]), .push .., rfl, ⟨.block, []⟩, by simp, rfl⟩

theorem sim_runItem {e : Eval.Each} (hlocal : e.frame.runtime.config.blockScoping = .local)
    (hbase : base ≤ i.scopes.size) (v : Value) :
    (confined base).Sim i (e.runItem (Eval.node fuel) v) (e.runItem (Eval.node fuel) v) := by
  have bound : ∀ {j : Names} (b : Binding), base ≤ j.scopes.size → (confined base).Sim j
      (EvalM.stepStore (fun st => st.newSlot b) >>= fun slot => Eval.inScope e.frame .item [(e.item, some slot)] >>=
        fun f => Eval.unscoped (Eval.node fuel) f e.body >>= fun _ => pure ())
      (EvalM.stepStore (fun st => st.newSlot b) >>= fun slot => Eval.inScope e.frame .item [(e.item, some slot)] >>=
        fun f => Eval.unscoped (Eval.node fuel) f e.body >>= fun _ => pure ()) := fun b hj => by
    rw [Eval.inItem_bind]
    refine sim_pushed hlocal hj (fun st hst => ?_) fun hf =>
      ((lawful base).unscoped (evaluators base fuel) hf trivial).bind fun _ => .pure _
    exact ⟨hst.pushItem e.frame.scope e.item b, .pushItem .., rfl, ⟨.item, _⟩, by simp, rfl⟩
  unfold Eval.Each.runItem
  cases e.ty with
  | none => exact bound _ hbase
  | some ty =>
    exact ((lawful base).onHeap _ _).bind_from fun v j (hj : i.Grows _ j) => bound _ (Nat.le_trans hbase hj.scopes.size)

/-- What creates names behind all scopes there are keeps the names of these. -/
theorem keepsNames_of_sim {x : EvalM α} (hst : m.store.Sound) (hchain : ∀ id ∈ f.scope, id < m.store.scopes.size)
    (hx : (confined m.store.scopes.size).Sim m.store.names x x) (left : (x m).Leaves m') :
    m.store.KeepsNames f.scope m'.store :=
  (Growth.grows_of_sim hx hst left).2.keepsNames hst (Nat.le_refl _) hchain

end Confined

namespace Eval

/-- Names that belong to a block do not leak out of it. Where blocks have their own names, in every frame whose scopes
exist, whether it ends with a value, with an error or in the middle with a `return`, a block with a scope of its own, a
run of the body of a loop for one item, and a whole `for` loop leave the scopes of the frame as they were: apart from
imports, each has the same names, bound to the same slots, with the same types. -/
theorem block_names_confined {f : Frame} {m m' : Machine} (hst : m.store.Sound)
    (hchain : ∀ id ∈ f.scope, id < m.store.scopes.size) (hlocal : f.runtime.config.blockScoping = .local) (fuel : Nat) :
    (∀ info stmts, (node fuel f ⟨info, .block stmts true⟩ m).Leaves m' → m.store.KeepsNames f.scope m'.store) ∧
      (∀ info item ty body v, (Each.runItem (node fuel) ⟨f, info, item, ty, body⟩ v m).Leaves m' →
        m.store.KeepsNames f.scope m'.store) ∧
      ∀ info init cond step body, (node fuel f ⟨info, .loop .forLoop init cond step body⟩ m).Leaves m' →
        m.store.KeepsNames f.scope m'.store := by
  have hbase : m.store.scopes.size ≤ m.store.names.scopes.size := Nat.le_refl _
  have hL := Confined.lawful m.store.scopes.size
  refine ⟨fun info stmts left => ?_, fun info item ty body v left => ?_, fun info init cond step body left => ?_⟩
  · cases fuel with
    | zero => cases left
    | succ fuel =>
      have hev := Confined.evaluators m.store.scopes.size fuel
      refine Confined.keepsNames_of_sim hst hchain (Confined.sim_inBlock hlocal hbase fun hg => ?_) left
      exact hL.statements hev hg (fun _ _ => trivial) .void
  · exact Confined.keepsNames_of_sim hst hchain (Confined.sim_runItem hlocal hbase v) left
  · cases fuel with
    | zero => cases left
    | succ fuel =>
      have hev := Confined.evaluators m.store.scopes.size fuel
      refine Confined.keepsNames_of_sim hst hchain (Confined.sim_inBlock hlocal hbase fun hg => ?_) left
      refine (Lockstep.Local.perform hev hg fun _ _ => trivial).bind fun _ => ?_
      exact hL.turns (fun _ _ => trivial) (fun _ _ => trivial) trivial hev hg fuel .forLoop

/-- A block in the body of a loop that a function runs declares a name, writes to a register of the call, and fails: the
register keeps what was written, and the name is gone. -/
theorem block_names_confined_failed :
    let f := Frame.nested .local
    let m : Machine := { Machine.start 0 with store := Store.nested }
    let i : Info := ⟨⟨0, 0⟩, .any, none⟩
    let stmts : List Node := [⟨i, .assignment (.name "y") none (some ⟨i, .literal (.int 1)⟩) (some .int) none⟩,
      ⟨i, .assignment (.name "x") none (some ⟨i, .literal (.int 7)⟩) none none⟩, ⟨i, .asserts ⟨i, .literal (.bool false)⟩ ""⟩]
    m.store.Sound ∧ (∀ id ∈ f.scope, id < m.store.scopes.size) ∧ f.runtime.config.blockScoping = .local ∧
      ∃ e m', node 3 f ⟨i, .block stmts true⟩ m = .error e m' ∧ m.store.KeepsNames f.scope m'.store ∧
        m'.store.lookup? f.scope "x" = some (.int 7) ∧ m'.store.resolve? f.scope "y" = none := by
  intro f m i stmts
  have hformed : f.FormedIn m.store := Frame.nested_formedIn .local
  have h : (node 3 f ⟨i, .block stmts true⟩ m).errorAnd (fun _ m' =>
      decide (m'.store.lookup? f.scope "x" = some (.int 7)) && decide (m'.store.resolve? f.scope "y" = none)) = true := by
    decide +kernel
  obtain ⟨e, m', hfailed, h⟩ := Outcome.errorAnd_iff.mp h
  obtain ⟨hx, hy⟩ := (Bool.and_eq_true _ _).mp h
  have left : (node 3 f ⟨i, .block stmts true⟩ m).Leaves m' := hfailed ▸ .error e m'
  refine ⟨hformed.store, hformed.frame.inBounds, rfl, e, m', hfailed, ?_, of_decide_eq_true hx, of_decide_eq_true hy⟩
  exact (block_names_confined hformed.store hformed.frame.inBounds rfl 3).1 i stmts left

end Eval

end PathScript
