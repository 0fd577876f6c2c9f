import PathScript.Proofs.Fixed
import PathScript.Proofs.Sound

/-! # Names from outside

An evaluation from outside finds a name in the caller's variables or in the
context. It stores where it finds the name, else in a context that is a map, else
in a new variable; the name then holds what was stored. -/

namespace PathScript

/-! ## What names hold -/

namespace Variables

/-- Variables whose scope and slots are there. -/
structure Live (vars : Variables) (st : Store) : Prop where
  scope : vars.scope < st.scopes.size
  kind : (st.scope vars.scope).kind ≠ .imports
  slots : ∀ {name slot}, vars.slot? st name = some slot → slot < st.slots.size

theorem live_of_slots {vars : Variables} {st : Store} (hscope : vars.scope < st.scopes.size)
    (hkind : (st.scope vars.scope).kind ≠ .imports) (hslots : ∀ slot ∈ (st.scope vars.scope).slots, slot < st.slots.size) :
    vars.Live st :=
  ⟨hscope, hkind, fun hslot => hslots _ (Scope.mem_slots_of_local? hslot)⟩

section Names

variable (vars : Variables) (classes : ClassTable) (st : Store) (ctx : Value)

/-- What a name holds: a variable, else a place of the context. -/
def name? (name : String) : Option Value :=
  match vars.slot? st name with
  | some slot => some (st.value slot)
  | none => (ctx.named? classes st.heap name).bind st.heap.at?

/-- Where a path leads. -/
def lead? (p : Path) : Option Value :=
  match p.segments with
  | .root name :: steps => (vars.name? classes st ctx name).bind (Segment.leadAlong? classes st.heap · steps)
  | _ => none

/-- Whether a name is a variable, or no getter or setter of the context is asked for it. -/
def meetsName (name : String) : Bool := (vars.slot? st name).isSome || ctx.meetsName classes st.heap name

/-- Whether a path meets nothing but variables, containers that have places for its steps, and `null`. -/
def meets (library : ClassLibrary) (p : Path) : Bool :=
  match p.segments with
  | .root name :: steps =>
    vars.meetsName classes st ctx name &&
      match vars.name? classes st ctx name with
      | some v => Segment.meetAlong classes st.heap v steps
      | none => steps.isEmpty || (library.get? name).isNone
  | _ => false

end Names

variable {vars : Variables} {classes : ClassTable} {st : Store} {ctx v : Value} {name : String} {slot : SlotId}

theorem name?_of_slot (hslot : vars.slot? st name = some slot) :
    vars.name? classes st ctx name = some (st.value slot) := by
  rw [name?, hslot]

theorem name?_of_none (hslot : vars.slot? st name = none) :
    vars.name? classes st ctx name = (ctx.named? classes st.heap name).bind st.heap.at? := by
  rw [name?, hslot]

theorem meetsName_of_none (hslot : vars.slot? st name = none) :
    vars.meetsName classes st ctx name = ctx.meetsName classes st.heap name := by
  rw [meetsName, hslot]
  rfl

end Variables

/-- A frame of an evaluation from outside that has bound no imports. -/
structure Frame.Outer (f : Frame) (vars : Variables) (st : Store) : Prop where
  scope : ∃ i, f.scope = [i, vars.scope] ∧ st.scope i = ⟨.imports, []⟩
  this : f.this = .null
  live : vars.Live st

namespace Frame.Outer

variable {f : Frame} {vars : Variables} {st st' : Store} {name : String} {v w : Value}

theorem resolve?_eq (h : f.Outer vars st) (name : String) : st.resolve? f.scope name = vars.slot? st name := by
  obtain ⟨i, hscope, hi⟩ := h.scope
  have hlocal : st.local? i name = none := by rw [Store.local?, hi]; rfl
  rw [hscope, Store.resolve?, List.findSome?_cons, hlocal, List.findSome?_cons, List.findSome?_nil, Variables.slot?]
  cases st.local? vars.scope name <;> rfl

theorem lookupReceivers_eq (h : f.Outer vars st) {o : Option Value}
    (ho : Member.lookup? f.host f.ctx name st.heap = .ok o st.heap) :
    Store.onHeap (f.lookupReceivers name f.receivers) st = .ok o st := by
  have hthis : Member.lookup? f.host f.this name st.heap = .ok none st.heap := by rw [h.this]; rfl
  have hfound : f.lookupReceivers name f.receivers st.heap = .ok o st.heap := by
    refine (Run.bind_ok hthis _).trans ((Run.bind_ok ho _).trans ?_)
    cases o <;> rfl
  rw [Store.onHeap_apply, hfound]

theorem readName_slot (h : f.Outer vars st) {slot : SlotId} (hslot : vars.slot? st name = some slot) :
    f.readName name st = .ok (st.value slot) st := by
  rw [Frame.readName, Run.get_bind, Store.lookup?, h.resolve?_eq, hslot]
  rfl

theorem readName_receiver (h : f.Outer vars st) (hslot : vars.slot? st name = none)
    (hv : Member.lookup? f.host f.ctx name st.heap = .ok (some v) st.heap) : f.readName name st = .ok v st := by
  rw [Frame.readName, Run.get_bind, Store.lookup?, h.resolve?_eq, hslot]
  exact (Run.bind_ok (h.lookupReceivers_eq hv) _).trans rfl

theorem readName_eq (h : f.Outer vars st) (hv : vars.name? f.world.classes st f.ctx name = some v) :
    f.readName name st = .ok v st := by
  cases hslot : vars.slot? st name with
  | some slot =>
    rw [Variables.name?_of_slot hslot] at hv
    cases hv
    exact h.readName_slot hslot
  | none =>
    rw [Variables.name?_of_none hslot] at hv
    obtain ⟨p, hp, hv⟩ := Option.bind_eq_some_iff.mp hv
    exact h.readName_receiver hslot (Member.lookup?_of_named? hp hv)

theorem readName_nowhere (h : f.Outer vars st) (hmeets : vars.meetsName f.world.classes st f.ctx name = true)
    (hv : vars.name? f.world.classes st f.ctx name = none) (hlibrary : f.runtime.library.get? name = none) :
    f.readName name st = .error (.unresolvable name) st := by
  cases hslot : vars.slot? st name with
  | some slot => cases (Variables.name?_of_slot hslot).symm.trans hv
  | none =>
    rw [Variables.meetsName_of_none hslot] at hmeets
    rw [Variables.name?_of_none hslot] at hv
    have hnone : Member.lookup? f.host f.ctx name st.heap = .ok none st.heap := Member.lookup?_of_none hmeets hv
    rw [Frame.readName, Run.get_bind, Store.lookup?, h.resolve?_eq, hslot]
    refine (Run.bind_ok (h.lookupReceivers_eq hnone) _).trans ?_
    dsimp only
    rw [hlibrary]
    rfl

theorem fixed_walk (h : f.Outer vars st) (path : Path) {ev : Evaluator} (hev : ev.TakesLiterals) {steps : List Segment}
    (hs : ∀ s ∈ steps, s.Constant) (hv : vars.name? f.world.classes st f.ctx name = some v)
    (hl : Segment.leadAlong? f.world.classes st.heap v steps = some w) :
    ∃ seen, EvalM.Fixed (Walk.along ev f path (.root name :: steps) .null none) st (.ok (w, seen)) := by
  have hroot : EvalM.Fixed (.onStore (f.errorOn path) (f.readName name)) st (.ok v) := .onStore (r := .ok v) (h.readName_eq hv)
  obtain ⟨seen, halong⟩ := Walk.fixed_along path hev hs hl
  exact ⟨_, .bind (.bind hroot (.pure _)) (.bind halong (.pure _))⟩

/-- A path that leads nowhere fails, unless something else is met on it than places. -/
theorem fixed_walk_error (h : f.Outer vars st) (path : Path) {ev : Evaluator} (hev : ev.TakesLiterals) {steps : List Segment}
    (hs : ∀ s ∈ steps, s.Constant) (hmeets : vars.meetsName f.world.classes st f.ctx name = true)
    (hlibrary : vars.name? f.world.classes st f.ctx name = none → f.runtime.library.get? name = none)
    (hmeet : ∀ v, vars.name? f.world.classes st f.ctx name = some v →
      Segment.meetAlong f.world.classes st.heap v steps = true)
    (hl : (vars.name? f.world.classes st f.ctx name).bind (Segment.leadAlong? f.world.classes st.heap · steps) = none) :
    ∃ e, EvalM.Fixed (Walk.along ev f path (.root name :: steps) .null none) st (.error e) := by
  cases hv : vars.name? f.world.classes st f.ctx name with
  | none =>
    have hroot : EvalM.Fixed (.onStore (f.errorOn path) (f.readName name)) st (.error _) :=
      .onStore (r := .error (.unresolvable name)) (h.readName_nowhere hmeets hv (hlibrary hv))
    exact ⟨_, .bindError (.bindError hroot)⟩
  | some v =>
    rw [hv] at hl
    have hroot : EvalM.Fixed (.onStore (f.errorOn path) (f.readName name)) st (.ok v) := .onStore (r := .ok v) (h.readName_eq hv)
    obtain ⟨e, halong⟩ := Walk.fixed_along_error path hev hs (hmeet v hv) hl
    exact ⟨e, .bind (.bind hroot (.pure _)) (.bindError halong)⟩

end Frame.Outer

/-! ## Storing under a name -/

namespace Variables.Live

variable {vars : Variables} {classes : ClassTable} {st : Store} {ctx : Value}

theorem withHeap (h : vars.Live st) (heap : Heap) : vars.Live { st with heap } := ⟨h.scope, h.kind, h.slots⟩

theorem withValue (h : vars.Live st) (slot : SlotId) (v : Value) : vars.Live (st.withValue slot v) :=
  ⟨h.scope, h.kind, fun hslot => by rw [Store.withValue, Table.size_update]; exact h.slots hslot⟩

theorem bound (h : vars.Live st) (name : String) (b : Binding) :
    vars.Live (st.bound vars.scope (fun slot s => s.bind name slot) b) ∧
      vars.name? classes (st.bound vars.scope (fun slot s => s.bind name slot) b) ctx name = some b.value := by
  generalize hst' : st.bound vars.scope (fun slot s => s.bind name slot) b = st'
  have hsize : st'.slots.size = st.slots.size + 1 := by rw [← hst', Store.bound, Table.size_alloc]
  have hscope : st'.scope vars.scope = (st.scope vars.scope).bind name st.slots.size := by
    rw [← hst', Store.scope_bound, if_pos ⟨rfl, h.scope⟩]
  have hslot : ∀ other, vars.slot? st' other = if name = other then some st.slots.size else vars.slot? st other := by
    intro other
    rw [Variables.slot?, Store.local?, hscope, Scope.local?, Scope.bind, Entries.find?_put]
    split <;> rfl
  have hvalue : st'.value st.slots.size = b.value := by
    rw [← hst', Store.value, Store.binding, Store.bound, Table.get?_alloc, Table.alloc_fst, if_pos rfl]
    rfl
  refine ⟨⟨?_, ?_, ?_⟩, ?_⟩
  · rw [← hst', Store.bound, Table.size_update]
    exact h.scope
  · rw [hscope]
    exact h.kind
  · intro other slot hother
    rw [hsize]
    rw [hslot] at hother
    split at hother
    · cases hother
      exact Nat.lt_succ_self _
    · exact Nat.lt_succ_of_lt (h.slots hother)
  · rw [name?_of_slot ((hslot name).trans (if_pos rfl)), hvalue]

end Variables.Live

namespace Frame.Outer

variable {f : Frame} {vars : Variables} {st st' : Store} {name : String} {v w : Value}

theorem creationScope_eq (h : f.Outer vars st) : st.creationScope (f.bindingChain st) = some vars.scope := by
  obtain ⟨i, hscope, hi⟩ := h.scope
  have hchain : ∀ {chain}, chain = [i, vars.scope] ∨ chain = [vars.scope] → st.creationScope chain = some vars.scope := by
    have houter : [vars.scope].find? (fun id => (st.scope id).kind != .imports) = some vars.scope :=
      List.find?_cons_of_pos (bne_iff_ne.mpr h.live.kind)
    rintro chain (rfl | rfl)
    · rw [Store.creationScope, List.find?_cons_of_neg (by rw [hi]; decide), houter]
    · exact houter
  have hfirst : (st.scope i).isTarget = false := by rw [hi]; rfl
  apply hchain
  rw [Frame.bindingChain, hscope]
  split
  next => exact .inl rfl
  next =>
    rw [Store.nearestTarget, List.dropWhile_cons_of_pos (by rw [hfirst]; rfl)]
    cases htarget : (st.scope vars.scope).isTarget with
    | true =>
      rw [List.dropWhile_cons_of_neg (by rw [htarget]; decide)]
      exact .inr rfl
    | false =>
      rw [List.dropWhile_cons_of_pos (by rw [htarget]; rfl)]
      exact .inl rfl

theorem writableReceiver?_eq (h : f.Outer vars st) (heap : Heap) (name : String) :
    f.writableReceiver? heap name = if Member.isWritable f.host heap f.ctx name then some f.ctx else none := by
  have hthis : Member.isWritable f.host heap f.this name = false := by rw [h.this]; rfl
  rw [Frame.writableReceiver?, Frame.receivers, List.find?_cons_of_neg (by rw [hthis]; decide), List.find?_singleton]

/-- What is stored in the context is at the place that the name stands for then; a name that the context does not take is
left to the variables. -/
theorem writeReceiver_eq_ok (h : f.Outer vars st) (hkeeps : f.runtime.converter.Keeps) {heap heap' : Heap} {found : Option Value}
    (hmeets : f.ctx.meetsName f.world.classes heap name = true)
    (hw : f.writeReceiver name v true heap = .ok found heap') :
    (∃ w, found = some w ∧ (f.ctx.named? f.world.classes heap' name).bind heap'.at? = some w) ∨
      (found = none ∧ heap' = heap) := by
  unfold Frame.writeReceiver at hw
  rw [Run.get_bind, h.writableReceiver?_eq] at hw
  by_cases hwritable : Member.isWritable f.host heap f.ctx name = true
  · rw [if_pos hwritable] at hw
    obtain ⟨w, heap₁, hwrite, hfound⟩ := Run.bind_eq_ok.mp hw
    cases hfound
    have hmeets := Member.meets_of_isWritable f.host hmeets hwritable false
    obtain ⟨heap₁, p, hp, hext, hat, rfl⟩ := Member.writeProperty_eq_ok f.host hkeeps hmeets hwrite
    exact .inl ⟨w, rfl, Value.named?_bind_put hp (hext.isSome_at? hat) w⟩
  · rw [if_neg hwritable] at hw
    cases hctx : f.ctx with
    | map a =>
      rw [hctx] at hw hmeets
      cases hw
      have hplace : (Segment.property name false).place? f.world.classes heap (.map a) = some (.entry a name) := rfl
      exact .inl ⟨v, rfl, Value.named?_bind_put hplace (by simpa [Heap.at?, Value.meetsName] using hmeets) v⟩
    | _ =>
      rw [hctx] at hw
      cases hw
      exact .inr ⟨rfl, rfl⟩

theorem storeName_eq_ok (h : f.Outer vars st) (hkeeps : f.runtime.converter.Keeps)
    (hmeets : vars.meetsName f.world.classes st f.ctx name = true) (hw : f.storeName name v none true st = .ok w st') :
    vars.name? f.world.classes st' f.ctx name = some w ∧ vars.Live st' := by
  rw [Frame.storeName, Run.get_bind, h.resolve?_eq] at hw
  cases hslot : vars.slot? st name with
  | some slot =>
    rw [hslot] at hw
    obtain ⟨heap, -, rfl⟩ := Store.assign_eq_ok hw
    refine ⟨?_, (h.live.withHeap heap).withValue slot w⟩
    have hslot' : vars.slot? ({ st with heap }.withValue slot w) name = some slot := hslot
    rw [Variables.name?_of_slot hslot', Store.value, Store.binding_withValue, if_pos (h.live.slots hslot)]
  | none =>
    rw [hslot] at hw
    obtain ⟨found, st₁, hfound, hrest⟩ := Run.bind_eq_ok.mp hw
    obtain ⟨heap, hreceiver, rfl⟩ := Store.onHeap_eq_ok.mp hfound
    rw [Variables.meetsName_of_none hslot] at hmeets
    obtain ⟨w', rfl, hholds⟩ | ⟨rfl, rfl⟩ := h.writeReceiver_eq_ok hkeeps hmeets hreceiver
    · cases hrest
      have hslot' : vars.slot? { st with heap } name = none := hslot
      exact ⟨(Variables.name?_of_none hslot').trans hholds, h.live.withHeap heap⟩
    · have hnew : st.createIn (f.bindingChain st) name ⟨v, none⟩ none =
          (st.slots.size, st.bound vars.scope (fun slot s => s.bind name slot) ⟨v, none⟩) :=
        Store.createIn_of_some h.creationScope_eq none
      change Outcome.ok v (st.createIn (f.bindingChain st) name ⟨v, none⟩ none).2 = .ok w st' at hrest
      rw [hnew] at hrest
      cases hrest
      exact (h.live.bound name ⟨v, none⟩).symm

end Frame.Outer

end PathScript
