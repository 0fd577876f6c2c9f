import PathScript.Proofs.Conversion
import PathScript.Proofs.Interpreted
import PathScript.Proofs.Sound

/-! # Declared types

All that is written to a slot with a declared type is converted first. So if
conversion gives what it is asked for, the slot holds a value of its type at
every point of an evaluation. Only scopes that an evaluation can meet are spoken
of; of others nothing is assumed. -/

namespace PathScript

/-! ## Values of a type -/

/-- A slot holds a value of its declared type. -/
def Binding.Typed (b : Binding) : Prop := ∀ ty ∈ b.ty, ty.isKnown = true → b.value.Fits ty

instance (b : Binding) : Decidable b.Typed := inferInstanceAs (Decidable (∀ ty ∈ b.ty, ty.isKnown = true → b.value.Fits ty))

theorem Binding.typed_untyped (v : Value) : Binding.Typed ⟨v, none⟩ := by
  intro ty h
  cases h

/-- A converter that gives what it is asked for. -/
def Converter.Typed (c : Converter) : Prop :=
  ∀ ⦃v ty h w h'⦄, c.convert v ty h = .ok w h' → ty.isKnown = true → w.Fits ty

theorem Converter.Typed.binding {c : Converter} (hc : c.Typed) {v w : Value} {ty : Ty} {h h' : Heap}
    (hw : c.convert v ty h = .ok w h') : (Binding.of w (some ty)).Typed := by
  intro ty' hty hknown
  have hty : ty.known? = some ty' := hty
  unfold Ty.known? at hty
  split at hty
  · cases hty
    exact hc hw hknown
  · cases hty

theorem Converter.Typed.stores {c : Converter} (hc : c.Typed) {v w : Value} {ty : Option Ty} {h h' : Heap}
    (hw : c.Stores ty v h w h') : Binding.Typed ⟨w, ty⟩ := by
  rintro ty rfl hknown
  exact hc hw hknown

/-- A registry gives what it is asked for if the converters of the host do. -/
theorem ConversionRegistry.converter_typed {r : ConversionRegistry} (h : ∀ e ∈ r.custom, e.2.Typed) : r.converter.Typed := by
  intro v ty heap w heap' hw hknown
  obtain ⟨e, he, heq⟩ | heq := r.convert_cases v ty
  · exact h e he (heq ▸ hw) hknown
  · exact Convert.fits_of_convert (heq ▸ hw) hknown

/-! ## Stores whose slots hold what they declare -/

/-- The slots of some scopes hold values of their types. -/
def Store.Declared (Met : ScopeId → Prop) (st : Store) : Prop :=
  ∀ id, Met id → ∀ slot ∈ (st.scope id).slots, (st.binding slot).Typed

namespace Store.Declared

variable {Met : ScopeId → Prop} {st : Store} {b : Binding}

theorem newSlot (h : st.Declared Met) (hb : b.Typed) : (st.newSlot b).2.Declared Met := by
  intro id hid slot hslot
  rw [binding_newSlot]
  split
  · exact hb
  · exact h id hid slot hslot

theorem bound (h : st.Declared Met) (hb : b.Typed) (id : ScopeId) {g : SlotId → Scope → Scope}
    (hg : Scope.Binds st.slots.size (g st.slots.size)) : (st.bound id g b).Declared Met := by
  intro id' hid slot hslot
  have hbinding : (st.bound id g b).binding slot = if slot = st.slots.size then b else st.binding slot :=
    binding_newSlot slot
  rw [hbinding]
  split
  next => exact hb
  next hne =>
    rw [scope_bound] at hslot
    split at hslot
    · exact h id' hid slot ((hg.slots _ slot hslot).resolve_left hne)
    · exact h id' hid slot hslot

theorem createIn (h : st.Declared Met) (hb : b.Typed) (chain : Chain) (name : String) (register : Option Nat) :
    (st.createIn chain name b register).2.Declared Met :=
  createIn_cases (h.newSlot hb) fun id _ => h.bound hb id (binds_binder register _)

theorem importInto (h : st.Declared Met) (chain : Chain) (name : String) (v : Value) :
    (st.importInto chain name v).2.Declared Met :=
  importInto_cases h fun id _ => h.bound (Binding.typed_untyped v) id (Scope.binds_bind name _)

theorem push (h : st.Declared Met) (kind : ScopeKind) {cells : List (String × Option SlotId)} (chain : Chain)
    (hcells : ∀ slot ∈ (Scope.mk kind cells).slots, (st.binding slot).Typed) :
    (st.push kind cells chain).2.Declared Met := by
  intro id hid slot hslot
  rw [scope_push] at hslot
  split at hslot
  · exact hcells slot hslot
  · exact h id hid slot hslot

theorem pushItem (h : st.Declared Met) (hb : b.Typed) (chain : Chain) (name : String) :
    (st.pushItem chain name b).2.Declared Met := by
  refine (h.newSlot hb).push .item chain fun slot hslot => ?_
  obtain rfl : slot = st.slots.size := by simpa [Scope.slots] using hslot
  rw [binding_newSlot, if_pos rfl]
  exact hb

theorem withValue (h : st.Declared Met) {slot : SlotId} {v : Value} (hv : Binding.Typed ⟨v, (st.binding slot).ty⟩) :
    (st.withValue slot v).Declared Met := by
  intro id hid slot' hslot
  by_cases hne : slot = slot'
  · subst hne
    rw [binding_withValue]
    split
    · exact hv
    · exact h id hid slot hslot
  · rw [binding_withValue_ne hne]
    exact h id hid slot' hslot

end Store.Declared

/-! ## Evaluation -/

/-- The scopes that an evaluation can meet: those it is given, and all that are made from some number on. -/
def Chain.Met (given : Chain) (base : Nat) (id : ScopeId) : Prop := id ∈ given ∨ base ≤ id

/-- All slots that an evaluation can meet hold values of their types, and did so when statements were reported. -/
structure Machine.Declared (given : Chain) (base : Nat) (m : Machine) : Prop where
  base_le : base ≤ m.store.scopes.size
  store : m.store.Declared (given.Met base)
  events : ∀ event ∈ m.events, event.store.Declared (given.Met base)

/-- The scopes of a frame are among those an evaluation can meet, and its converter gives what it is asked for. -/
structure Frame.Within (given : Chain) (base : Nat) (f : Frame) : Prop where
  scope : ∀ id ∈ f.scope, given.Met base id
  root : ∀ id ∈ f.root, given.Met base id
  converter : f.runtime.converter.Typed

/-- An evaluation and itself, where slots hold what they declare. -/
def declaration (given : Chain) (base : Nat) : Lockstep :=
  .self (fun _ _ : Unit => True) (fun _ => trivial) (fun _ _ => trivial) (fun _ m => m.Declared given base)
    (fun _ f => f.Within given base) Binding.Typed

namespace Declaration

variable {given : Chain} {base : Nat} {f f' : Frame} {m : Machine} {α β : Type}

theorem upkeep : (declaration given base).Upkeep where
  frames := fun h => h.1
  frames_mono := fun _ h => h
  with_this := fun h _ => ⟨rfl, h.2.scope, h.2.root, h.2.converter⟩
  deeper := fun h _ => ⟨rfl, h.2.scope, h.2.root, h.2.converter⟩
  inside := fun _ => trivial
  evaluates := fun _ => trivial
  bindable_untyped := Binding.typed_untyped
  bindable_converted := fun h hconvert => h.2.converter.binding hconvert
  accel := fun h => by rw [h.1]
  returned := fun h => by rw [h.1]
  heap := fun h => by rw [h.1]
  with_accel := fun h _ => ⟨by rw [h.1], h.2.base_le, h.2.store, h.2.events⟩
  with_returned := fun h _ => ⟨by rw [h.1], h.2.base_le, h.2.store, h.2.events⟩
  with_heap := fun h _ => ⟨by rw [h.1], h.2.base_le, h.2.store, h.2.events⟩
  report := fun _ h _ => ⟨by rw [h.1], h.2.base_le, h.2.store, List.forall_mem_cons.mpr ⟨h.2.store, h.2.events⟩⟩
  resolve := fun _ h _ => by rw [h.1]
  slot := fun _ h _ => by rw [h.1]
  write := by
    rintro i f _ m name slot v h w h' ⟨-, hf⟩ ⟨rfl, hm⟩ - hstores
    exact ⟨(), trivial, rfl, hm.base_le, hm.store.withValue (hf.converter.stores hstores), hm.events⟩
  binds := by
    rintro i f _ m α g - ⟨rfl, hm⟩ hg
    refine ⟨rfl, (), trivial, rfl, ?_, ?_, hm.events⟩
    · cases hg with
      | create _ name _ register => exact (Store.scopes_size_createIn ..).symm ▸ hm.base_le
      | importInto name v => exact (Store.scopes_size_importInto ..).symm ▸ hm.base_le
    · cases hg with
      | create _ name hb register => exact hm.store.createIn hb _ name register
      | importInto name v => exact hm.store.importInto f.scope name v
  opens := by
    rintro i f _ m g ⟨-, hf⟩ ⟨rfl, hm⟩ hg
    have pushed : ∀ {chain : Chain}, (∀ id ∈ chain, given.Met base id) → ∀ id ∈ m.store.scopes.size :: chain, given.Met base id :=
      fun hchain => List.forall_mem_cons.mpr ⟨.inr hm.base_le, hchain⟩
    have hsize : ∀ s, base ≤ (m.store.scopes.alloc s).2.size := fun s =>
      Table.size_alloc _ s ▸ Nat.le_succ_of_le hm.base_le
    refine ⟨rfl, (), trivial, ?_⟩
    cases hg with
    | block =>
      exact ⟨⟨rfl, pushed hf.scope, hf.root, hf.converter⟩, rfl, hsize _,
        hm.store.push .block f.scope (by simp [Scope.slots]), hm.events⟩
    | item name hb =>
      exact ⟨⟨rfl, pushed hf.scope, hf.root, hf.converter⟩, rfl, hsize _, hm.store.pushItem hb f.scope name, hm.events⟩
    | call =>
      exact ⟨⟨rfl, pushed hf.root, hf.root, hf.converter⟩, rfl, hsize _,
        hm.store.push .indexed f.root (by simp [Scope.slots]), hm.events⟩

theorem lawful : (declaration given base).Lawful := upkeep.lawful

theorem sites : (declaration given base).Sites := upkeep.sites

end Declaration

/-! ## States on the way

A condition that is checked wherever the evaluation of a node starts or ends. If
evaluation stays the same whatever it would do where the condition fails, the
condition never fails. -/

namespace Eval

variable {ok : Frame → Machine → Prop} {beyond : Evaluator}

open Classical in
/-- One way to evaluate where a condition holds at the start of a node and of what it leaves, and another where it does
not. Literals are out of the question: they are what they are everywhere. -/
noncomputable def throughout (ok : Frame → Machine → Prop) (beyond ev : Evaluator) : Evaluator := fun f n m =>
  match n.kind with
  | .literal v => .ok v m
  | _ => if ok f m ∧ ∀ m', (ev f n m).Leaves m' → ok f m' then ev f n m else beyond f n m

/-- A node, with fuel, where a condition holds of every frame and machine at the start and at the end of every node on
the way; where it does not hold, anything else can happen. -/
noncomputable def nodeThroughout (ok : Frame → Machine → Prop) (beyond : Evaluator) : Nat → Evaluator
  | 0 => throughout ok beyond (node 0)
  | fuel + 1 => throughout ok beyond (step (nodeThroughout ok beyond fuel) fuel)

/-- A program, where a condition holds at every node on the way. -/
noncomputable def programThroughout (ok : Frame → Machine → Prop) (beyond : Evaluator) (fuel : Nat) (f : Frame)
    (root : Node) : EvalM Value :=
  activation (unscoped (nodeThroughout ok beyond fuel) f root)

theorem throughout_literal {ev : Evaluator} {f : Frame} {n : Node} {v : Value} (h : n.kind = .literal v) :
    throughout ok beyond ev f n = pure v := by
  funext m
  simp only [throughout, h, Run.pure_apply]

theorem throughout_of {ev : Evaluator} {f : Frame} {n : Node} {m : Machine} (h : ∀ v, n.kind ≠ .literal v) (hok : ok f m)
    (hleft : ∀ m', (ev f n m).Leaves m' → ok f m') : throughout ok beyond ev f n m = ev f n m := by
  unfold throughout
  split
  next v hk => exact absurd hk (h v)
  next => rw [if_pos ⟨hok, hleft⟩]

end Eval

namespace Lockstep

variable {L : Lockstep}

/-- If a condition holds of all frames and machines in a relation, it holds wherever a node starts or ends. -/
theorem Lawful.nodeThroughout (hL : L.Lawful) (hS : L.Sites) (hev : ∀ ev ev', L.Evaluates ev ev') (hs : L.strict)
    {ok : Frame → Machine → Prop}
    (hok : ∀ {i f f' m m'}, L.Frames i f f' → L.Alike i m m' → ok f' m') (beyond : Evaluator) (fuel : Nat) :
    L.Evaluators (Eval.node fuel) (Eval.nodeThroughout ok beyond fuel) := by
  refine hL.guarded hS (Eval.throughout ok beyond) hev rfl (fun _ => rfl) Eval.throughout_literal
    (fun hk hf hm hjoined => ?_) fuel
  refine Eval.throughout_of hk (hok hf hm) fun m₁ left => ?_
  obtain ⟨j, m₂, hle, halike⟩ := hjoined.leaves_right hs left
  exact hok (hL.frames_mono hle hf) halike

theorem Lawful.programThroughout (hL : L.Lawful) (hS : L.Sites) (hev : ∀ ev ev', L.Evaluates ev ev') (hs : L.strict)
    {ok : Frame → Machine → Prop}
    (hok : ∀ {i f f' m m'}, L.Frames i f f' → L.Alike i m m' → ok f' m') (beyond : Evaluator) (fuel : Nat)
    {i : L.Index} {f f' : Frame} {n : Node} (hf : L.Frames i f f') (hn : L.Inside n) :
    L.Sim i (Eval.program fuel f n) (Eval.programThroughout ok beyond fuel f' n) :=
  hL.activation (hL.unscoped (hL.nodeThroughout hS hev hs hok beyond fuel) hf hn)

end Lockstep

/-! ## Engines -/

namespace Outcome

variable {σ ε α : Type}

/-- Whether a computation fails, with an error with which something holds. -/
def errorAnd (o : Outcome σ ε α) (p : ε → σ → Bool) : Bool :=
  match o with
  | .error e s => p e s
  | _ => false

theorem errorAnd_iff {o : Outcome σ ε α} {p : ε → σ → Bool} :
    o.errorAnd p = true ↔ ∃ e s, o = .error e s ∧ p e s = true := by
  cases o <;> simp [errorAnd]

end Outcome

/-- The frame's scopes are among those that can be met, and all slots of those hold what they declare. -/
def Frame.DeclaredIn (given : Chain) (base : Nat) (f : Frame) (m : Machine) : Prop :=
  f.Within given base ∧ m.Declared given base

namespace Declaration

variable {given : Chain} {base : Nat} {f : Frame} {m : Machine}

/-- Slots hold what they declare wherever the evaluation of a node starts or ends, and in what a program leaves. -/
theorem program_declared (h : f.DeclaredIn given base m) (fuel : Nat) (root : Node) :
    (∀ beyond, Eval.programThroughout (Frame.DeclaredIn given base) beyond fuel f root m = Eval.program fuel f root m) ∧
      ∀ m', (Eval.program fuel f root m).Leaves m' → m'.Declared given base := by
  have hsim : ∀ beyond, (declaration given base).Sim () (Eval.program fuel f root)
      (Eval.programThroughout (Frame.DeclaredIn given base) beyond fuel f root) := fun beyond => by
    refine lawful.programThroughout sites (fun _ _ => trivial) trivial (fun {_ g g' n n'} hg hn => ?_) beyond fuel
      ⟨rfl, h.1⟩ trivial
    obtain ⟨rfl, hg⟩ : g' = g ∧ g.Within given base := hg
    obtain ⟨rfl, hn⟩ : n' = n ∧ n.Declared given base := hn
    exact ⟨hg, hn⟩
  have hjoined := fun beyond => hsim beyond () trivial m m ⟨rfl, h.2⟩
  refine ⟨fun beyond => (hjoined beyond).eq_of_self, fun m' left => ?_⟩
  obtain ⟨-, -, -, -, hm'⟩ := (hjoined (Eval.node 0)).leaves_left trivial left
  exact hm'

end Declaration

/-- The variables of a caller hold what they declare. -/
def Variables.Declared (vars : Variables) (st : Store) : Prop :=
  ∀ slot ∈ (st.scope vars.scope).slots, (st.binding slot).Typed

instance (vars : Variables) (st : Store) : Decidable (vars.Declared st) :=
  inferInstanceAs (Decidable (∀ slot ∈ (st.scope vars.scope).slots, (st.binding slot).Typed))

namespace Engine

variable {e : Engine} {vars : Option Variables}

theorem runtime_of_compile {e' : Engine} {source : String} {options : CompileOptions} {c : CompiledExpression}
    (compiled : compile source options e = .ok c e') : c.runtime = e.runtime options := by
  obtain ⟨p, -, rfl, -⟩ := exists_of_compile compiled
  rfl

def givenScopes (vars : Option Variables) : Chain := vars.toList.map Variables.scope

/-- The scopes of an evaluation from outside are new or those of the variables, and their slots hold what they declare. -/
theorem rootChain_declared {st : Store} (hvars : ∀ v ∈ vars, v.Declared st) (imports : Dict Value) :
    (rootChain imports vars st).2.Declared ((givenScopes vars).Met st.scopes.size) ∧
      st.scopes.size ≤ (rootChain imports vars st).2.scopes.size ∧
      ∀ id ∈ (rootChain imports vars st).1, (givenScopes vars).Met st.scopes.size id := by
  have hstart : st.Declared ((givenScopes vars).Met st.scopes.size) := by
    rintro id (hid | hid) slot hslot
    · obtain ⟨v, hv, rfl⟩ := List.mem_map.mp hid
      exact hvars v (Option.mem_toList.mp hv) slot hslot
    · rw [Store.scope_eq_default hid] at hslot
      cases hslot
  refine ⟨rootChain_induction (fun kind chain h => h.push kind chain (by simp [Scope.slots]))
    (fun chain name v h => h.importInto chain name v) imports hstart, scopes_size_le_rootChain imports st, fun id hid => ?_⟩
  obtain ⟨v, hv, rfl⟩ | ⟨hle, -⟩ := mem_rootChain hid
  · exact .inl (List.mem_map_of_mem (Option.mem_toList.mpr hv))
  · exact .inr hle

/-- Slots with a declared type hold a value of that type, or `null` where the type has it, in every state of an
evaluation: wherever the evaluation of a node starts or ends, with a value or with an error, when statements are
reported, and in what the whole evaluation leaves. This is said of all scopes that the evaluation can meet, those of the
variables it is given and all that are made from its start on; the scopes of every frame are among them. The converter
has to give what it is asked for, and the variables have to hold what they declare. -/
theorem declared_types_hold (c : CompiledExpression) (hc : c.runtime.converter.Typed)
    (hvars : ∀ v ∈ vars, v.Declared e.machine.store) (ctx this : Value) (options : EvalOptions) :
    let given := givenScopes vars
    let base := e.machine.store.scopes.size
    (∀ beyond, onMachine (Eval.programThroughout (Frame.DeclaredIn given base) beyond options.fuel
        (e.frameOf c.runtime ctx this vars options.mode options.watched) c.root) (e.started c.runtime vars) =
      evaluate c ctx this vars options e) ∧
    ∀ e', (evaluate c ctx this vars options e).Leaves e' → e'.machine.Declared given base := by
  intro given base
  obtain ⟨hstore, hle, hchain⟩ := rootChain_declared hvars c.runtime.imports
  have hstart : Frame.DeclaredIn given base (e.frameOf c.runtime ctx this vars options.mode options.watched)
      (e.started c.runtime vars).machine :=
    ⟨⟨hchain, hchain, hc⟩, hle, hstore, by simp [started]⟩
  obtain ⟨hsame, hleft⟩ := Declaration.program_declared hstart options.fuel c.root
  refine ⟨fun beyond => ?_, fun e' left => ?_⟩
  · rw [evaluate_eq]
    simp only [onMachine, Run.zoom, Run.mapError, splitMachine, hsame beyond]
  · rw [evaluate_eq] at left
    obtain ⟨m, hm, rfl⟩ := leaves_onMachine left
    exact hleft m hm

/-- A declared variable, a typed parameter, a typed item and a variable that the caller has declared take texts for
numbers, by assignments, compound assignments and increments. The last assignment fails, and all of them hold numbers. -/
theorem declared_types_hold_failed_assignment : ∃ (e : Engine) (c : CompiledExpression) (vars : Variables),
      c.runtime.converter.Typed ∧ vars.Declared e.machine.store ∧
      ∃ err e', evaluate c .null .null (some vars) ⟨.accelerated, true, 40⟩ e = .error err e' ∧
        e'.machine.Declared [vars.scope] e.machine.store.scopes.size ∧
        vars.get? e'.machine.store "n" = some (.int 101) ∧ vars.get? e'.machine.store "k" = some (.int 1097) := by
  let e₀ : Engine := .new .standard fun _ => 0
  let source := "int k = '7'; def f(int p) \x7b p += '0'; ++p; p \x7d " ++
    "foreach (int x : ['8', '9']) \x7b x += 1; k = x + '' + k; n = f(x) \x7d k = 'x'"
  have h : (compile source .standard e₀).okAnd (fun c e₁ =>
      (stepStore Variables.new e₁).okAnd fun vars e₂ =>
      (stepStore (fun st => ((), vars.declare "n" .int (.int 5) st)) e₂).okAnd fun _ e₃ =>
        decide (vars.Declared e₃.machine.store) &&
        (evaluate c .null .null (some vars) ⟨.accelerated, true, 40⟩ e₃).errorAnd fun _ e₄ =>
          decide (vars.get? e₄.machine.store "n" = some (.int 101)) &&
          decide (vars.get? e₄.machine.store "k" = some (.int 1097))) = true := by
    decide +kernel
  simp only [Outcome.okAnd_iff, Outcome.errorAnd_iff, Bool.and_eq_true, decide_eq_true_eq] at h
  obtain ⟨c, e₁, hcompiled, vars, e₂, -, -, e₃, -, hvars, err, e₄, hevaluated, hn, hk⟩ := h
  have hc : c.runtime.converter.Typed := by
    rw [runtime_of_compile hcompiled]
    exact ConversionRegistry.converter_typed (r := .empty) nofun
  have hgiven : ∀ v ∈ some vars, v.Declared e₃.machine.store := fun v hv => by cases hv; exact hvars
  obtain ⟨-, hleft⟩ := declared_types_hold c hc hgiven .null .null ⟨.accelerated, true, 40⟩
  exact ⟨e₃, c, vars, hc, hvars, err, e₄, hevaluated, hleft e₄ (by rw [hevaluated]; exact .error err e₄), hn, hk⟩

end Engine

end PathScript
