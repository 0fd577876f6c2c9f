import PathScript.Proofs.Formed

/-! # Declarations are visible

A declaration makes one new binding in the scope that it stands in. Imports are
looked at before the variables of the caller, but nothing is created in them; so
at top level an import hides a variable of its name, even one that was declared
after it. -/

namespace PathScript

/-! ## A new binding -/

/-- The store with one new binding, of a name in a scope. -/
structure Store.Created (st st' : Store) (id : ScopeId) (name : String) (b : Binding) : Prop where
  heap : st'.heap = st.heap
  size : st'.slots.size = st.slots.size + 1
  binding : st'.binding st.slots.size = b
  bindings : ∀ slot < st.slots.size, st'.binding slot = st.binding slot
  bound : st'.local? id name = some st.slots.size
  names : ∀ other, name ≠ other → st'.local? id other = st.local? id other
  kind : (st'.scope id).kind = (st.scope id).kind
  scopes : ∀ other, id ≠ other → st'.scope other = st.scope other

namespace Store

variable {st st' : Store} {chain : Chain} {id : ScopeId} {name : String} {b : Binding}

theorem kind_of_creationScope (h : st.creationScope chain = some id) : (st.scope id).kind ≠ .imports := by
  simpa using List.find?_some h

theorem resolve?_cons (id : ScopeId) (rest : Chain) (name : String) :
    st.resolve? (id :: rest) name = (st.local? id name).or (st.resolve? rest name) := by
  rw [resolve?, List.findSome?_cons]
  cases st.local? id name <;> rfl

theorem created_createIn (hscope : st.creationScope chain = some id) (hid : id < st.scopes.size)
    (hdistinct : (st.scope id).kind = .indexed → (st.scope id).Distinct) (register : Option Nat) :
    st.Created (st.createIn chain name b register).2 id name b := by
  rw [createIn_of_some hscope]
  have hchanged : (st.bound id (st.binder chain name register) b).scope id =
      st.binder chain name register st.slots.size (st.scope id) := by
    rw [scope_bound, if_pos ⟨rfl, hid⟩]
  have hlocal : ∀ other, (st.bound id (st.binder chain name register) b).local? id other =
      if name = other then some st.slots.size else st.local? id other := fun other => by
    rw [local?, hchanged]
    exact local?_binder register (fun hkind => hdistinct (kind_of_kindOf hscope hkind)) other
  have hbinding : ∀ slot, (st.bound id (st.binder chain name register) b).binding slot =
      if slot = st.slots.size then b else st.binding slot := fun slot => binding_newSlot slot
  refine ⟨rfl, Table.size_alloc .., ?_, fun slot hslot => ?_, ?_, fun other hother => ?_, ?_, fun other hother => ?_⟩
  · rw [hbinding, if_pos rfl]
  · rw [hbinding, if_neg (Nat.ne_of_lt hslot)]
  · rw [hlocal, if_pos rfl]
  · rw [hlocal, if_neg hother]
  · rw [hchanged]
    exact (binds_binder register _).kind _
  · rw [scope_bound, if_neg fun h => hother h.1]

namespace Created

variable (h : st.Created st' id name b)
include h

theorem resolve?_of_none (hid : id ∈ chain) (hnone : st.resolve? chain name = none) :
    st'.resolve? chain name = some st.slots.size := by
  induction chain with
  | nil => cases hid
  | cons head rest ih =>
    rw [resolve?_cons, Option.or_eq_none_iff] at hnone
    rw [resolve?_cons]
    by_cases hhead : id = head
    · rw [← hhead, h.bound, Option.some_or]
    · have hsame : st'.local? head name = none := by
        rw [local?, h.scopes head hhead]
        exact hnone.1
      rw [hsame, Option.none_or]
      exact ih ((List.mem_cons.mp hid).resolve_left hhead) hnone.2

theorem lookup?_eq (hslot : st'.resolve? chain name = some st.slots.size) :
    st'.lookup? chain name = some b.value := by
  rw [lookup?, hslot, Option.map_some, value, h.binding]

theorem outside (hst : st.Sound) {other : ScopeId} (hother : id ≠ other) :
    st'.scope other = st.scope other ∧ ∀ slot ∈ (st.scope other).slots, st'.binding slot = st.binding slot :=
  ⟨h.scopes other hother, fun slot hslot => h.bindings slot (hst.inBounds other slot hslot)⟩

theorem lookup?_first (rest : Chain) : st'.lookup? (id :: rest) name = some b.value :=
  h.lookup?_eq (by rw [resolve?_cons, h.bound, Option.some_or])

/-- A scope in front of that of the new binding hides it, if it has the name. -/
theorem lookup?_second (hst : st.Sound) {first : ScopeId} (hne : id ≠ first) (rest : Chain) :
    st'.lookup? (first :: id :: rest) name = some ((st.lookup? [first] name).getD b.value) := by
  obtain ⟨hscope, hbindings⟩ := h.outside hst hne
  have hsame : st'.local? first name = st.local? first name := by rw [local?, hscope, local?]
  cases hlocal : st.local? first name with
  | none =>
    have hnone : st.lookup? [first] name = none := by rw [lookup?, resolve?_cons, hlocal]; rfl
    rw [hnone]
    exact h.lookup?_eq (by rw [resolve?_cons, hsame, hlocal, Option.none_or, resolve?_cons, h.bound, Option.some_or])
  | some slot =>
    have hvalue : st.lookup? [first] name = some (st.value slot) := by rw [lookup?, resolve?_cons, hlocal]; rfl
    have hslot : st'.value slot = st.value slot :=
      congrArg Binding.value (hbindings slot (Scope.mem_slots_of_local? hlocal))
    rw [hvalue, lookup?, resolve?_cons, hsame, hlocal, Option.some_or, Option.map_some, hslot]
    rfl

end Created

end Store

/-! ## The scope of a frame -/

namespace Frame

/-- The scope that a frame declares names in: the innermost one, at top level the variables of the caller. -/
def innermost? (f : Frame) : Option ScopeId := if f.scope = f.root then f.root.getLast? else f.scope.head?

/-- The scopes that are a frame's own: the innermost one, at top level imports and variables together. -/
def own (f : Frame) : Chain := if f.scope = f.root then f.root else f.scope.take 1

/-- The value of an import that hides a variable: at top level, imports come first. -/
def import? (f : Frame) (st : Store) (name : String) : Option Value :=
  if f.scope = f.root then st.lookup? (f.root.take 1) name else none

end Frame

/-- A chain over the root is the root, or begins with a scope that is neither of imports nor of variables. -/
theorem Chain.Formed.cases_head {t : Table Scope} {root chain : Chain} (h : Chain.Formed t root chain) :
    chain = root ∨ ∃ id rest, chain = id :: rest ∧ chain ≠ root ∧ (t.scope id).kind ≠ .imports := by
  have hlength : ∀ {chain}, Chain.Formed t root chain → root.length ≤ chain.length := fun h => by
    induction h with
    | top => exact Nat.le_refl _
    | call => exact Nat.le_succ _
    | inner _ _ ih => exact Nat.le_trans ih (Nat.le_succ _)
  have hlonger : ∀ {id : ScopeId} {chain : Chain}, root.length ≤ chain.length → id :: chain ≠ root := fun hle heq => by
    rw [← heq] at hle
    exact Nat.not_succ_le_self _ hle
  cases h with
  | top => exact .inl rfl
  | @call id isCall => exact .inr ⟨id, root, rfl, hlonger (Nat.le_refl _), by rw [isCall]; decide⟩
  | @inner id chain isInner outer =>
    refine .inr ⟨id, chain, rfl, hlonger (hlength outer), ?_⟩
    rcases isInner with hkind | hkind <;> rw [hkind] <;> decide

namespace Frame.FormedIn

variable {f : Frame} {st : Store} {id : ScopeId} {name : String} {b : Binding}

theorem cases_scope (hf : f.FormedIn st) :
    (∃ imports vars, f.scope = f.root ∧ f.root = [imports, vars] ∧ (st.scope imports).kind = .imports ∧
      (st.scope vars).kind = .global) ∨
    ∃ id rest, f.scope = id :: rest ∧ f.scope ≠ f.root ∧ (st.scope id).kind ≠ .imports := by
  obtain ⟨imports, vars, hroot⟩ := hf.frame.root
  exact hf.frame.scope.cases_head.imp_left fun heq => ⟨imports, vars, heq, hroot⟩

/-- Names are declared in the innermost scope. -/
theorem creationScope_eq (hf : f.FormedIn st) : ∃ id, f.innermost? = some id ∧ st.creationScope f.scope = some id := by
  obtain ⟨imports, vars, htop, hroot, himports, hvars⟩ | ⟨id, rest, hscope, hinner, hkind⟩ := hf.cases_scope
  · refine ⟨vars, ?_, ?_⟩
    · rw [innermost?, if_pos htop, hroot]
      rfl
    · rw [htop, hroot, Store.creationScope, List.find?_cons_of_neg (by rw [himports]; decide),
        List.find?_cons_of_pos (by rw [hvars]; decide)]
  · refine ⟨id, ?_, ?_⟩
    · rw [innermost?, if_neg hinner, hscope]
      rfl
    · rw [hscope, Store.creationScope, List.find?_cons_of_pos (by simpa using hkind)]

theorem created (hf : f.FormedIn st) {chain : Chain} (hscope : st.creationScope chain = some id) (hid : id ∈ f.scope)
    (name : String) (b : Binding) (register : Option Nat) : st.Created (st.createIn chain name b register).2 id name b :=
  Store.created_createIn hscope (hf.frame.inBounds id hid) (hf.frame.distinct hid) register

/-- A binding that a frame creates is found in it, unless an import hides it, and is in a scope of its own. -/
theorem declared (hf : f.FormedIn st) (name : String) (b : Binding) (register : Option Nat) :
    ∃ id ∈ f.own, st.Created (st.createIn f.scope name b register).2 id name b ∧
      (st.createIn f.scope name b register).2.lookup? f.scope name = some ((f.import? st name).getD b.value) := by
  obtain ⟨id, hinnermost, hscope⟩ := hf.creationScope_eq
  have hcreated := hf.created hscope (List.mem_of_find?_eq_some hscope) name b register
  refine ⟨id, ?_, hcreated, ?_⟩
  all_goals
    obtain ⟨imports, vars, htop, hroot, himports, hvars⟩ | ⟨head, rest, hchain, hinner, -⟩ := hf.cases_scope
  · rw [own, if_pos htop, ← htop]
    exact List.mem_of_find?_eq_some hscope
  · rw [innermost?, if_neg hinner] at hinnermost
    rw [own, if_neg hinner]
    rw [hchain] at hinnermost ⊢
    exact List.mem_singleton.mpr (Option.some.inj hinnermost).symm
  · obtain rfl : vars = id := by
      rw [innermost?, if_pos htop, hroot] at hinnermost
      exact Option.some.inj hinnermost
    have hne : vars ≠ imports := fun heq => by
      rw [heq] at hvars
      cases hvars.symm.trans himports
    have hfound := hcreated.lookup?_second hf.store hne []
    rw [import?, if_pos htop, hroot]
    rw [htop, hroot] at hfound ⊢
    exact hfound
  · obtain rfl : head = id := by
      rw [innermost?, if_neg hinner, hchain] at hinnermost
      exact Option.some.inj hinnermost
    have hfound := hcreated.lookup?_first rest
    rw [import?, if_neg hinner]
    rw [hchain] at hfound ⊢
    exact hfound

end Frame.FormedIn

/-! ## Declarations -/

/-- The name that a node declares, as a variable or as a function. -/
def Node.declares? (n : Node) : Option String :=
  match n.kind with
  | .assignment (.name name) _ _ (some _) _ => some name
  | .functionDecl fn => some fn.name
  | _ => none

namespace Eval

section Meaning

variable (ev : Evaluator) (f : Frame)

/-- A value converted to a type, if there is one. -/
def converted (info : Info) (ty : Option Ty) (v : Value) : EvalM Value :=
  match ty with
  | some ty => EvalM.onHeap (f.errorIn info) (f.runtime.converter.convert v ty)
  | none => pure v

/-- What a declared variable holds at first: its initial value, else the default of its type, converted to the type. -/
def initial (info : Info) (ty : Ty) (value : Option Node) : EvalM Value :=
  (match value with
  | some n => ev f n
  | none => pure ((ty.known?.map Ty.default).getD .null)) >>= converted f info ty.known?

/-- What a declaration stands for, and the machine in which its binding is made: the converted initial value and what
its evaluation leaves, or the function at once. -/
inductive Declares (m : Machine) (n : Node) : String → Value → Machine → Prop where
  | initialized {name : String} {op : Option Operator} {value : Option Node} {ty : Ty} {register : Option Nat} {w : Value}
      {m₁ : Machine} (kind : n.kind = .assignment (.name name) op value (some ty) register)
      (value : initial ev f n.info ty value m = .ok w m₁) : Declares m n name w m₁
  | defined {fn : Function} (kind : n.kind = .functionDecl fn) : Declares m n fn.name (.function fn.ref) m

theorem declare_eq (info : Info) (name : String) (ty : Ty) (value : Option Node) (register : Option Nat) :
    declare ev f info name ty value register = (do
      let v ← initial ev f info ty value
      let _ ← EvalM.stepStore fun st => st.createIn f.scope name (.of v ty.known?) register
      pure v) := by
  unfold declare initial converted
  cases value <;> cases ty.known? <;> simp only [bind_assoc, pure_bind]

end Meaning

variable {ev : Evaluator} {f : Frame} {m m' : Machine} {n : Node} {name : String} {r : Value} {fuel : Nat}

theorem declares_of_step (hn : n.declares? = some name) (hr : step ev fuel f n m = .ok r m') :
    ∃ w m₁ b register, Declares ev f m n name w m₁ ∧ b.value = w ∧
      m'.store = (m₁.store.createIn f.scope name b register).2 := by
  unfold Node.declares? at hn
  unfold step at hr
  split at hn
  next name' op value ty register hkind =>
    cases hn
    rw [hkind] at hr
    change declare ev f n.info name ty value register m = .ok r m' at hr
    rw [declare_eq] at hr
    obtain ⟨w, m₁, hw, hrest⟩ := Run.bind_eq_ok.mp hr
    cases hrest
    exact ⟨_, m₁, .of _ ty.known?, register, .initialized hkind hw, rfl, rfl⟩
  next fn hkind =>
    cases hn
    rw [hkind] at hr
    cases hr
    exact ⟨.function fn.ref, m, ⟨.function fn.ref, none⟩, none, .defined hkind, rfl, rfl⟩
  next => cases hn

theorem formedIn_of_declares {k : Nat} {w : Value} {m₁ : Machine} (hf : f.FormedIn m.store)
    (h : Declares (node k) f m n name w m₁) : f.FormedIn m₁.store := by
  cases h with
  | defined => exact hf
  | @initialized _ _ value ty _ _ _ _ hinitial =>
    obtain ⟨v, m₂, hv, hrest⟩ := Run.bind_eq_ok.mp hinitial
    have hf₂ : f.FormedIn m₂.store := by
      cases value with
      | none =>
        cases hv
        exact hf
      | some init =>
        obtain ⟨hsound, hgrows⟩ := Growth.node_grows hf.store (.of_ok (show node k f init m = _ from hv))
        exact ⟨hsound, hf.frame.mono hgrows⟩
    cases hty : ty.known? with
    | none =>
      rw [hty] at hrest
      cases hrest
      exact hf₂
    | some ty =>
      rw [hty] at hrest
      obtain ⟨heap, -, rfl⟩ := EvalM.onHeap_eq_ok.mp hrest
      exact ⟨⟨hf₂.store.inBounds, hf₂.store.apart⟩, hf₂.frame⟩

/-- A declaration is visible where it is made. In a frame of any kind, the name stands for the converted initial value, or
for the function, once it is declared; only at top level does an import of that name hide it. The scopes that are not the
frame's own have all their names, and each name has the value that the evaluation of the initial value has left. -/
theorem declared_name_visible (hf : f.FormedIn m.store) (hn : n.declares? = some name)
    (hr : node fuel f n m = .ok r m') : ∃ k w m₁, fuel = k + 1 ∧ Declares (node k) f m n name w m₁ ∧
      m'.store.lookup? f.scope name = some ((f.import? m₁.store name).getD w) ∧
      ∀ id ∉ f.own, m'.store.scope id = m₁.store.scope id ∧
        ∀ slot ∈ (m₁.store.scope id).slots, m'.store.binding slot = m₁.store.binding slot := by
  cases fuel with
  | zero =>
    unfold Node.declares? at hn
    split at hn
    next hkind =>
      simp only [node, hkind] at hr
      cases hr
    next hkind =>
      simp only [node, hkind] at hr
      cases hr
    next => cases hn
  | succ k =>
    obtain ⟨w, m₁, b, register, hdeclares, rfl, hstore⟩ := declares_of_step hn hr
    have hf₁ := formedIn_of_declares hf hdeclares
    obtain ⟨id, hid, hcreated, hfound⟩ := hf₁.declared name b register
    refine ⟨k, b.value, m₁, rfl, hdeclares, ?_, fun other hother => ?_⟩
    · rw [hstore]
      exact hfound
    · rw [hstore]
      exact hcreated.outside hf₁.store fun heq => hother (heq ▸ hid)

/-- In the body of a loop that a function runs, a typed variable is declared with a text. The registers of the call, the
imports and the variables of the caller have that name too, and keep what they hold. -/
theorem declared_name_visible_in_loop :
    let f := Frame.nested .local
    let n : Node := ⟨⟨⟨0, 0⟩, .int, none⟩,
      .assignment (.name "x") none (some ⟨⟨⟨0, 0⟩, .str, none⟩, .literal (.str "5")⟩) (some .int) none⟩
    ∃ m m', m.store = Store.nested ∧ f.FormedIn m.store ∧ n.declares? = some "x" ∧ node 1 f n m = .ok (.int 5) m' ∧
      (f.scope.map fun id => m'.store.lookup? [id] "x") = [some (.int 5), some (.int 3), some (.int 2), some (.int 1)] ∧
      ∃ m₁, Declares (node 0) f m n "x" (.int 5) m₁ ∧ m'.store.lookup? f.scope "x" = some (.int 5) ∧
        ∀ id ∈ f.scope.tail, m'.store.scope id = m₁.store.scope id ∧
          ∀ slot ∈ (m₁.store.scope id).slots, m'.store.binding slot = m₁.store.binding slot := by
  intro f n
  let m : Machine := { Machine.start 0 with store := Store.nested }
  have hformed : f.FormedIn m.store := Frame.nested_formedIn .local
  have h : (node 1 f n m).okAnd (fun v m' => decide (v = .int 5) && decide ((f.scope.map fun id =>
      m'.store.lookup? [id] "x") = [some (.int 5), some (.int 3), some (.int 2), some (.int 1)]) &&
      decide (m'.store.lookup? f.scope "x" = some (.int 5))) = true := by
    decide +kernel
  obtain ⟨v, m', hr, h⟩ := Outcome.okAnd_iff.mp h
  obtain ⟨h, hfound⟩ := (Bool.and_eq_true _ _).mp h
  obtain ⟨hv, hvalues⟩ := (Bool.and_eq_true _ _).mp h
  cases of_decide_eq_true hv
  have hname : n.declares? = some "x" := rfl
  obtain ⟨k, w, m₁, hk, hdeclares, hvisible, houtside⟩ := declared_name_visible hformed hname hr
  obtain rfl : k = 0 := (Nat.succ.inj hk).symm
  have himport : f.import? m₁.store "x" = none := if_neg (by decide)
  have hfound := of_decide_eq_true hfound
  obtain rfl : w = .int 5 := by
    rw [himport, hfound] at hvisible
    exact (Option.some.inj hvisible).symm
  refine ⟨m, m', rfl, hformed, hname, hr, of_decide_eq_true hvalues, m₁, hdeclares, hfound, fun id hid => ?_⟩
  exact houtside id (by revert id; decide)

end Eval

namespace Engine

/-- An import hides a variable that the program declares: the caller finds the initial value in the variable, but the
program reads the import. -/
theorem import_hides_declaration : ∃ (c : CompiledExpression) (vars : Variables) (e₁ e₂ e₃ : Engine),
      compile "var x = 5; x" { CompileOptions.standard with imports := .ofList [("x", .int 1)] }
        (.new .standard fun _ => 0) = .ok c e₁ ∧ stepStore Variables.new e₁ = .ok vars e₂ ∧
      evaluate c .null .null (some vars) ⟨.interpreted, false, 10⟩ e₂ = .ok (.int 1) e₃ ∧
      vars.get? e₃.machine.store "x" = some (.int 5) := by
  have h : (compile "var x = 5; x" { CompileOptions.standard with imports := .ofList [("x", .int 1)] }
      (.new .standard fun _ => 0)).okAnd (fun c e₁ =>
      (stepStore Variables.new e₁).okAnd fun vars e₂ =>
      (evaluate c .null .null (some vars) ⟨.interpreted, false, 10⟩ e₂).okAnd fun v e₃ =>
        decide (v = .int 1) && decide (vars.get? e₃.machine.store "x" = some (.int 5))) = true := by
    decide +kernel
  simp only [Outcome.okAnd_iff, Bool.and_eq_true, decide_eq_true_eq] at h
  obtain ⟨c, e₁, hcompile, vars, e₂, hvars, v, e₃, hevaluate, rfl, hx⟩ := h
  exact ⟨c, vars, e₁, e₂, e₃, hcompile, hvars, hevaluate, hx⟩

end Engine

end PathScript
