import PathScript.Proofs.Promise

/-! # Programs that only read

A program that binds, writes and calls nothing is a formula in the names that it
reads. It makes scopes without names and containers of its own, so a name stands
throughout for what it stood for at the start: a variable or an import, or an
entry of a context that is a map. If that is what the static type of the name
promises, the promise is kept. -/

namespace PathScript

namespace Node

/-- The name that a node reads. -/
def name? (n : Node) : Option String :=
  match n.kind with
  | .property path _ =>
    match path.segments with
    | [.root name] => some name
    | _ => none
  | _ => none

theorem exists_of_name? {n : Node} {name : String} (h : n.name? = some name) :
    ∃ path site, n.kind = .property path site ∧ path.segments = [.root name] := by
  unfold name? at h
  split at h
  next path site hk =>
    split at h
    next hsegments => cases h; exact ⟨path, site, hk, hsegments⟩
    next => cases h
  next => cases h

/-- Whether a node computes from names, and binds, writes and calls nothing. -/
def onlyReads (n : Node) : Bool :=
  match n.kind with
  | .property _ _ => n.name?.isSome
  | .literal _ | .emptyWord | .unary _ _ | .binary _ _ _ | .and _ _ | .or _ _ | .ternary _ _ _ | .emptyTest _ _
  | .regexMatch _ _ _ | .collection _ _ | .group _ | .ifChain _ _ | .block _ _ | .returns _ | .asserts _ _ => true
  | _ => false

end Node

/-! ## Names -/

namespace Value

/-- The entry of a map. -/
def held? (h : Heap) (name : String) : Value → Option Value
  | map a => (h.map a).get? name
  | _ => none

/-- Whether a value has no properties that would have to be computed, and is there if it is a map. -/
def isPlainReceiver (h : Heap) : Value → Bool
  | map a => (h.maps.get? a).isSome
  | object _ _ => false
  | _ => true

variable {h h' : Heap} {r : Value}

theorem held?_of_keepsMaps (hr : r.isPlainReceiver h = true) (hmaps : h.KeepsMaps h') (name : String) :
    r.held? h' name = r.held? h name := by
  cases r with
  | map a =>
    obtain ⟨d, hd⟩ := Option.isSome_iff_exists.mp hr
    simp only [held?, Heap.map, hd, hmaps a d hd]
  | _ => rfl

theorem isPlainReceiver_of_keepsMaps (hr : r.isPlainReceiver h = true) (hmaps : h.KeepsMaps h') :
    r.isPlainReceiver h' = true := by
  cases r with
  | map a =>
    obtain ⟨d, hd⟩ := Option.isSome_iff_exists.mp hr
    simp only [isPlainReceiver, hmaps a d hd, Option.isSome_some]
  | object => cases hr
  | _ => rfl

end Value

namespace Frame

variable {f : Frame}

/-- What a name is given: a value in the scopes, else an entry of `this` or of the context. -/
def given? (f : Frame) (st : Store) (name : String) : Option Value :=
  (st.lookup? f.scope name).or (f.receivers.findSome? (·.held? st.heap name))

theorem lookupReceivers_eq {h : Heap} {rs : List Value} (hrs : ∀ r ∈ rs, r.isPlainReceiver h = true) (name : String) :
    f.lookupReceivers name rs h = .ok (rs.findSome? (·.held? h name)) h := by
  induction rs with
  | nil => rfl
  | cons r rest ih =>
    have hfirst : Member.lookup? f.host r name h = .ok (r.held? h name) h := by
      cases r with
      | object c a => cases hrs (.object c a) (by simp)
      | _ => rfl
    rw [lookupReceivers, Run.bind_ok hfirst, List.findSome?_cons]
    cases r.held? h name with
    | some v => rfl
    | none => exact ih fun r hr => hrs r (by simp [hr])

end Frame

/-- A store that has come from another without binding a name or writing to a slot or a map. -/
structure Store.Outgrows (st st₀ : Store) : Prop where
  names : ∀ id name, st.local? id name = st₀.local? id name
  slots : st.slots = st₀.slots
  maps : st₀.heap.KeepsMaps st.heap

namespace Store.Outgrows

variable {st st₀ : Store}

theorem refl (st : Store) : st.Outgrows st := ⟨fun _ _ => rfl, rfl, .refl _⟩

theorem lookup? (h : st.Outgrows st₀) (chain : Chain) (name : String) : st.lookup? chain name = st₀.lookup? chain name := by
  have hnames : (fun id => st.local? id name) = fun id => st₀.local? id name := funext fun id => h.names id name
  have hvalue : st.value = st₀.value := by
    funext slot
    simp only [Store.value, Store.binding, h.slots]
  simp only [Store.lookup?, Store.resolve?, hnames, hvalue]

theorem local?_next (h : st.Outgrows st₀) (name : String) : st₀.local? st.scopes.size name = none := by
  rw [← h.names, Store.local?, Store.scope_eq_default (Nat.le_refl _)]
  rfl

theorem push (h : st.Outgrows st₀) (kind : ScopeKind) (chain : Chain) : (st.push kind [] chain).2.Outgrows st₀ := by
  refine ⟨fun id name => ?_, h.slots, h.maps⟩
  rw [Store.local?, Store.scope_push]
  split
  next hid => rw [hid, h.local?_next]; rfl
  next => exact h.names id name

end Store.Outgrows

/-! ## Evaluation -/

section Given

variable {st₀ : Store} {f₀ f : Frame} {asked : Node → Prop} {typed : Bool} {α : Type} {ev ev' : Evaluator}

/-- A frame that sees what another one sees in some store. -/
structure Frame.SeesAs (f f₀ : Frame) (st₀ : Store) : Prop where
  mode : f.mode = .interpreted
  receivers : f.receivers = f₀.receivers
  lookup : ∀ name, st₀.lookup? f.scope name = st₀.lookup? f₀.scope name

/-- The stores of an evaluation that only reads. -/
def Given (st₀ : Store) (m : Machine) : Prop := m.store.Outgrows st₀

theorem inert_given : Inert (Given st₀) := fun _ _ hm hmaps =>
  ⟨hm.names, hm.slots, fun a d ha => hmaps a d (hm.maps a d ha)⟩

theorem concur_readName (hplain : ∀ r ∈ f₀.receivers, r.isPlainReceiver st₀.heap = true) (hf : f.SeesAs f₀ st₀)
    (locate : Fault → EvalError) (name : String) :
    Concur (Given st₀) (EvalM.onStore locate (f.readName name)) (EvalM.onStore locate (f.readName name)) fun v =>
      ∀ w ∈ f₀.given? st₀ name, v = w := by
  intro m hm
  refine ⟨rfl, fun v m' hv => ?_⟩
  rw [EvalM.onStore_readName, Run.bind_ok (Run.get_apply m), hm.lookup?, hf.lookup] at hv
  unfold Frame.given?
  cases hlookup : st₀.lookup? f₀.scope name with
  | some u =>
    rw [hlookup] at hv
    cases hv
    exact ⟨hm, fun w hw => by cases hw; rfl⟩
  | none =>
    have hreceivers : ∀ r ∈ f.receivers, r.isPlainReceiver m.store.heap = true := fun r hr =>
      Value.isPlainReceiver_of_keepsMaps (hplain r (hf.receivers ▸ hr)) hm.maps
    have hentries : f.receivers.findSome? (·.held? m.store.heap name) =
        f₀.receivers.findSome? (·.held? st₀.heap name) := by
      have hthis := Value.held?_of_keepsMaps (hplain f₀.this (by simp [Frame.receivers])) hm.maps name
      have hctx := Value.held?_of_keepsMaps (hplain f₀.ctx (by simp [Frame.receivers])) hm.maps name
      rw [hf.receivers]
      simp only [Frame.receivers, List.findSome?_cons, List.findSome?_nil, hthis, hctx]
    have hheap : EvalM.onHeap locate (f.lookupReceivers name f.receivers) m =
        .ok (f₀.receivers.findSome? (·.held? st₀.heap name)) m := by
      rw [EvalM.onHeap_apply, Frame.lookupReceivers_eq hreceivers, hentries]
      rfl
    rw [hlookup] at hv
    dsimp only at hv
    rw [Run.bind_ok hheap] at hv
    cases hfound : f₀.receivers.findSome? (·.held? st₀.heap name) with
    | some u =>
      rw [hfound] at hv
      cases hv
      exact ⟨hm, fun w hw => by cases hw; rfl⟩
    | none =>
      rw [hfound] at hv
      refine ⟨?_, nofun⟩
      cases hclass : f.runtime.library.get? name with
      | some c => simp only [hclass] at hv; cases hv; exact hm
      | none => simp only [hclass] at hv; cases hv

theorem Walk.read_root {path : Path} {name : String} (h : path.segments = [.root name]) :
    Walk.read ev f path = EvalM.onStore (f.errorOn path) (f.readName name) := by
  simp only [read, along, step, h, bind_assoc, pure_bind, bind_pure]

theorem concur_report (info : Info) : Concur (Given st₀) (EvalM.report f info) (EvalM.report f info) fun _ => True := by
  unfold EvalM.report
  split
  · exact .modify fun _ hm => hm
  · exact .pure trivial

theorem concur_statements {ns : List Node} (h : ∀ n ∈ ns, Concur (Given st₀) (ev' f n) (ev f n) fun _ => True)
    (last : Value) :
    Concur (Given st₀) (Eval.statements ev' f ns last) (Eval.statements ev f ns last) fun _ => True := by
  induction ns generalizing last with
  | nil => exact .pure trivial
  | cons n rest ih =>
    refine (concur_report n.info).bind fun _ _ => (h n (by simp)).bind fun v _ => ?_
    refine Concur.bind (P := fun _ => True) (Concur.get.bind fun _ _ => .pure trivial) fun b _ => ?_
    exact .ite (fun _ => .pure trivial) fun _ => ih (fun c hc => h c (by simp [hc])) v

theorem concur_ifChain {otherwise : Option Node} {branches : List (Node × Node)}
    (hb : ∀ b ∈ branches, ∀ c ∈ [b.1, b.2], Concur (Given st₀) (ev' f c) (ev f c) fun _ => True)
    (hlast : ∀ n ∈ otherwise, Concur (Given st₀) (ev' f n) (ev f n) fun _ => True) :
    Concur (Given st₀) (Eval.ifChain ev' f otherwise branches) (Eval.ifChain ev f otherwise branches) fun _ => True := by
  induction branches with
  | nil =>
    cases otherwise with
    | none => exact .pure trivial
    | some n => exact hlast n rfl
  | cons b rest ih =>
    have hcond := concur_condition (hb b (by simp) b.1 (by simp))
    refine hcond.bind fun _ _ => .ite (fun _ => hb b (by simp) b.2 (by simp)) fun _ => ?_
    exact ih fun c hc => hb c (by simp [hc])

theorem concur_inBlock {k k' : Frame → EvalM α} {P : α → Prop} (hf : f.SeesAs f₀ st₀)
    (h : ∀ g : Frame, g.SeesAs f₀ st₀ → Concur (Given st₀) (k' g) (k g) P) :
    Concur (Given st₀) (Eval.inScope f .block [] >>= k') (Eval.inScope f .block [] >>= k) P := by
  intro m hm
  have hseen : Frame.SeesAs { f with scope := m.store.scopes.size :: f.scope } f₀ st₀ := by
    refine ⟨hf.mode, hf.receivers, fun name => ?_⟩
    rw [← hf.lookup name, Store.lookup?, Store.lookup?, Store.resolve?, Store.resolve?, List.findSome?_cons,
      hm.local?_next]
  rw [Eval.inScope_bind, Eval.inScope_bind, Run.bind_ok (EvalM.stepStore_apply _ m),
    Run.bind_ok (EvalM.stepStore_apply _ m)]
  exact h _ hseen _ (hm.push .block f.scope)

/-! ## Nodes -/

section Nodes

variable (hplain : ∀ r ∈ f₀.receivers, r.isPlainReceiver st₀.heap = true)
  (hgiven : ∀ n, asked n → ∀ name ∈ n.name?, ∃ w ∈ f₀.given? st₀ name, w.Meets n.egress)

include hplain hgiven

theorem concur_name {n : Node} {name : String} (hf : f.SeesAs f₀ st₀) (hname : n.name? = some name) (fuel : Nat) :
    Concur (Given st₀) (Eval.step ev' fuel f n) (Eval.step ev fuel f n) fun v => asked n → v.Meets n.egress := by
  obtain ⟨path, site, hk, hsegments⟩ := Node.exists_of_name? hname
  have hread : ∀ ev : Evaluator, Eval.step ev fuel f n = EvalM.onStore (f.errorOn path) (f.readName name) := by
    intro ev
    have hinterpreted : f.isInterpreted = true := by rw [Frame.isInterpreted, hf.mode]; rfl
    simp only [Eval.step, hk, Access.readPath, hinterpreted, if_true]
    exact Walk.read_root hsegments
  rw [hread, hread]
  refine (concur_readName hplain hf _ name).imp fun v hv hasked => ?_
  obtain ⟨w, hw, hmeets⟩ := hgiven n hasked name hname
  rw [hv w hw]
  exact hmeets

variable (hplace : ∀ n, asked n → n.isPlace = true)
include hplace

/-- A node does the same if its parts do, and keeps its promise if it is asked to. -/
theorem concur_reads {n : Node} (hf : f.SeesAs f₀ st₀) (hn : IsStatement typed n) (hreads : n.onlyReads = true)
    (hparts : ∀ c ∈ n.children, ∀ g : Frame, g.SeesAs f₀ st₀ → Concur (Given st₀) (ev' g c) (ev g c) fun _ => True)
    (fuel : Nat) :
    Concur (Given st₀) (Eval.step ev' fuel f n) (Eval.step ev fuel f n) fun v => asked n → v.Meets n.egress := by
  by_cases hname : ∃ name, n.name? = some name
  · obtain ⟨name, hname⟩ := hname
    exact concur_name hplain hgiven hf hname fuel
  have hno : n.isPlace = false := by
    obtain ⟨i, kind⟩ := n
    cases kind with
    | property path site => exact absurd (Option.isSome_iff_exists.mp hreads) hname
    | assignment | increment | newObject => cases hreads
    | _ => rfl
  suffices h : Concur (Given st₀) (Eval.step ev' fuel f n) (Eval.step ev fuel f n) fun _ => True by
    refine h.imp fun v _ hasked => ?_
    rw [hplace n hasked] at hno
    cases hno
  have hhere : ∀ c ∈ n.children, Concur (Given st₀) (ev' f c) (ev f c) fun _ => True := fun c hc => hparts c hc f hf
  cases hn with
  | expression hn =>
    have hkind : ∀ {kind}, n.kind = kind → (Node.mk n.info kind).onlyReads = true := by
      rintro kind rfl
      exact hreads
    refine (concur_step inert_given hf.mode hn hno (fun _ _ hk => ?_) (fun _ _ hk => ?_) hhere fuel).imp fun _ _ => trivial
    · cases hkind hk
    · cases hkind hk
  | declaration | forEach | loop | functionDecl | imports => cases hreads
  | @ifChain i branches otherwise conds bodies last egress =>
    refine concur_ifChain (fun b hb c hc => hhere c ?_) fun c hc => hhere c ?_
    · exact List.mem_append_left _ (List.mem_flatMap.mpr ⟨b, hb, hc⟩)
    · exact List.mem_append_right _ (Option.mem_toList.mpr hc)
  | @block i stmts ownScope parts egress =>
    cases ownScope with
    | true => exact concur_inBlock hf fun g hg => concur_statements (fun c hc => hparts c hc g hg) _
    | false => exact concur_statements hhere _
  | @returns i value source egress =>
    have noted : ∀ v : Value, Concur (Given st₀) (Eval.setReturn v >>= fun _ => pure v)
        (Eval.setReturn v >>= fun _ => pure v) fun _ => True :=
      fun v => Concur.bind (.modify fun _ hm => hm) fun _ _ => .pure trivial
    cases value with
    | none => exact noted .void
    | some c => exact (hhere c (by simp [Node.children])).bind fun v _ => noted v
  | @asserts i a text test egress =>
    refine (concur_condition (hhere a (by simp [Node.children]))).bind fun _ _ => ?_
    exact .ite (fun _ => .pure trivial) fun _ => .fail _

/-- Places keep the promises that hold of what is given, whatever the fuel. -/
theorem concur_kept {n : Node} (hf : f.SeesAs f₀ st₀) (hn : IsStatement typed n)
    (hreads : ∀ m : Node, m.Occurs n → m.onlyReads = true) (fuel : Nat) :
    Concur (Given st₀) (Eval.kept asked fuel f n) (Eval.node fuel f n) fun _ => True := by
  induction fuel generalizing n f with
  | zero => exact fun m hm => ⟨rfl, fun v m' h => ⟨(Eval.node_zero_eq_ok (f := f) h).2 ▸ hm, trivial⟩⟩
  | succ fuel ih =>
    have hstep := concur_reads hplain hgiven hplace hf hn (hreads n (.here n))
      (fun c hc g hg => ih hg (hn.child hc) fun m hm => hreads m (.under hc hm)) fuel
    rw [Eval.node, ← bind_pure (Eval.step (Eval.node fuel) fuel f n)]
    refine hstep.bind fun v hv => ?_
    rw [if_neg fun hbroken => hbroken.2 (hv hbroken.1)]
    exact .pure trivial

/-- In a program that only reads, all places keep the promises that hold of what is given. -/
theorem programKept_eq_of_given {root : Node} {m : Machine} (hm : m.store = st₀) (hmode : f₀.mode = .interpreted)
    (hroot : IsStatement typed root) (hreads : ∀ n : Node, n.Occurs root → n.onlyReads = true) (fuel : Nat) :
    Eval.programKept asked fuel f₀ root m = Eval.program fuel f₀ root m := by
  have hsees : f₀.SeesAs f₀ st₀ := ⟨hmode, rfl, fun _ => rfl⟩
  have hsame : Eval.unscoped (Eval.kept asked fuel) f₀ root { m with returned := none } =
      Eval.unscoped (Eval.node fuel) f₀ root { m with returned := none } := by
    have hgiven₀ : Given st₀ { m with returned := none } := by
      unfold Given
      rw [← hm]
      exact .refl _
    obtain ⟨i, kind⟩ := root
    cases kind with
    | block stmts own =>
      have hparts : ∀ c ∈ stmts, Concur (Given st₀) (Eval.kept asked fuel f₀ c) (Eval.node fuel f₀ c) fun _ => True :=
        fun c hc => concur_kept hplain hgiven hplace hsees (hroot.child hc) (fun n hn => hreads n (.under hc hn)) fuel
      exact (concur_statements hparts .void _ hgiven₀).1
    | _ => exact (concur_kept hplain hgiven hplace hsees hroot hreads fuel _ hgiven₀).1
  rw [Eval.programKept, Eval.program, Eval.activation_apply, Eval.activation_apply, hsame]

end Nodes

end Given

end PathScript
