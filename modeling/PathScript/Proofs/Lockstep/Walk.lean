import PathScript.Proofs.Lockstep

/-! # Walks in lockstep

Walks along two paths that stand at the same place do alike, and so does building
what an expression makes. The texts of the paths may differ where errors with
them may stand for each other: they show in the error of an index on `null`. -/

namespace PathScript.Lockstep

variable {L : Lockstep} {i : L.Index} {α : Type} {ev ev' : Evaluator} {f f' : Frame} {n : Node}

variable (L) in
/-- Two paths whose texts differ at most where that makes no difference on a walk along some segments. -/
structure SamePlace (segments : List Segment) (p p' : Path) : Prop where
  start : p.span.start = p'.span.start
  line : p.line = p'.line
  text : ∀ n, .index n false ∈ segments → ∀ f : Frame,
    L.error (f.errorOn p (.nullReference (p.text ++ "[]"))) (f.errorOn p' (.nullReference (p'.text ++ "[]")))

namespace SamePlace

theorem refl (segments : List Segment) (p : Path) : L.SamePlace segments p p :=
  ⟨rfl, rfl, fun _ _ _ => L.error_refl _⟩

theorem mono {segments more : List Segment} {p p' : Path} (h : L.SamePlace more p p') (hs : segments ⊆ more) :
    L.SamePlace segments p p' :=
  ⟨h.start, h.line, fun n hn => h.text n (hs hn)⟩

theorem errorOn {segments : List Segment} {p p' : Path} (h : L.SamePlace segments p p') (hL : L.Local)
    (hf : L.Frames i f f') : f'.errorOn p' = f.errorOn p := by
  obtain ⟨mode, rfl⟩ := hL.frames_eq hf
  funext fault
  simp only [Frame.errorOn, Frame.inMode, h.start, h.line]

end SamePlace

theorem evalAll (hev : L.Evaluators ev ev') (hf : L.Frames i f f') {ns : List Node} (hns : ∀ n ∈ ns, L.Inside n) :
    L.Sim i (Walk.evalAll ev f ns) (Walk.evalAll ev' f' ns) := by
  induction ns with
  | nil => exact .pure _
  | cons n rest ih =>
    refine (hev.sim hf (hns n (by simp))).bind fun v => ?_
    exact (ih fun m hm => hns m (by simp [hm])).bind fun _ => .pure _

namespace Local

variable (hL : L.Local) {p p' : Path}
include hL

theorem writeRoot (hf : L.Frames i f f') (v : Value) : L.Sim i (Walk.writeRoot f p v) (Walk.writeRoot f' p v) := by
  obtain ⟨-, -, -, -, herr⟩ := hL.frames_agree hf
  unfold Walk.writeRoot
  simp only [herr]
  split
  · exact hL.storeName hf _ _ _ _ _
  · exact .fail _

variable (hev : L.Evaluators ev ev') (hf : L.Frames i f f')
include hev hf

theorem walkStep {s : Segment} (hs : ∀ n ∈ s.nodes, L.Inside n)
    (hp : L.SamePlace [s] p p') (receiver : Value) (pending : Option (List Value)) :
    L.Sim i (Walk.step ev f p s receiver pending) (Walk.step ev' f' p' s receiver pending) := by
  have herr := hp.errorOn hL hf
  obtain ⟨-, -, hhost, -, hsame⟩ := hL.frames_agree hf
  unfold Walk.step
  simp only [herr, hhost]
  cases s with
  | root name =>
    exact (hL.onStore_readName hf _ name).bind fun _ => .pure _
  | this =>
    obtain ⟨mode, rfl⟩ := hL.frames_eq hf
    exact .pure _
  | base n => exact (hev.sim hf (hs n (by simp [Segment.nodes]))).bind fun _ => .pure _
  | property name safe => exact (hL.onHeap _ _).bind fun _ => .pure _
  | index n safe =>
    refine .ite Iff.rfl (.bind ?_ fun _ => .pure _) ?_
    · cases safe with
      | true => exact .pure _
      | false =>
        have related := hp.text n (by simp) f
        simp only [Walk.onNull, hsame]
        exact fun j _ _ _ hm => .error (L.le_refl j) related fun _ => hm
    · have read : ∀ index : Value, L.Sim i
          (EvalM.onHeap (f.errorOn p) (Member.readIndex receiver index safe) >>= fun v => pure (v, [index.typeOf]))
          (EvalM.onHeap (f.errorOn p) (Member.readIndex receiver index safe) >>= fun v => pure (v, [index.typeOf])) :=
        fun index => (hL.onHeap _ _).bind fun _ => .pure _
      cases pending.bind List.getLast? with
      | some v => exact read v
      | none => exact (hev.sim hf (hs n (by simp [Segment.nodes]))).bind read
  | method name args safe =>
    refine .ite Iff.rfl (.bind ?_ fun _ => .pure _) ?_
    · simp only [Walk.onNull, herr]
      exact .ite Iff.rfl (.pure _) (.fail _)
    · have called : ∀ vs : List Value, L.Sim i
          (EvalM.onHeap (f.errorOn p) (Member.call f.host receiver name vs safe) >>= fun v =>
            pure (v, vs.map Value.typeOf))
          (EvalM.onHeap (f.errorOn p) (Member.call f.host receiver name vs safe) >>= fun v =>
            pure (v, vs.map Value.typeOf)) :=
        fun vs => (hL.onHeap _ _).bind fun _ => .pure _
      cases pending with
      | some vs => exact called vs
      | none => exact (evalAll hev hf fun m hm => hs m (by simpa [Segment.nodes] using hm)).bind called

theorem along {segments : List Segment}
    (hs : ∀ n ∈ segments.flatMap Segment.nodes, L.Inside n) (hp : L.SamePlace segments p p') (receiver : Value)
    (pending : Option (List Value)) :
    L.Sim i (Walk.along ev f p segments receiver pending) (Walk.along ev' f' p' segments receiver pending) := by
  induction segments generalizing receiver pending with
  | nil => exact .pure _
  | cons s rest ih =>
    have hstep : L.Sim i (Walk.step ev f p s receiver pending) (Walk.step ev' f' p' s receiver pending) :=
      hL.walkStep hev hf (fun n hn => hs n (by simp [hn])) (hp.mono (by simp)) receiver pending
    refine hstep.bind fun r => ?_
    refine (ih (fun n hn => hs n ?_) (hp.mono (by simp)) r.1 none).bind fun _ => .pure _
    rw [List.flatMap_cons]
    exact List.mem_append_right _ hn

theorem walkRead (hs : ∀ n ∈ p.nodes, L.Inside n) : L.Sim i (Walk.read ev f p) (Walk.read ev' f' p) :=
  (hL.along hev hf hs (.refl _ p) .null none).bind fun _ => .pure _

theorem readLast (hs : ∀ n ∈ p.nodes, L.Inside n) (receiver : Value) :
    L.Sim i (Walk.readLast ev f p receiver) (Walk.readLast ev' f' p receiver) := by
  unfold Walk.readLast
  cases hlast : p.segments.getLast? with
  | none => exact .pure _
  | some last =>
    refine (hL.walkStep hev hf (fun n hn => hs n ?_) (.refl _ p) receiver none).bind fun _ => .pure _
    exact List.mem_flatMap.mpr ⟨last, List.mem_of_getLast? hlast, hn⟩

theorem probe (prepared : UnitStep) {s : Segment} (hs : ∀ n ∈ s.nodes, L.Inside n) (receiver : Value) :
    L.Sim i (SpecializedUnit.probe ev f p prepared s receiver) (SpecializedUnit.probe ev' f' p prepared s receiver) := by
  obtain ⟨-, hruntime, -, -, herr⟩ := hL.frames_agree hf
  unfold SpecializedUnit.probe
  simp only [herr, hruntime]
  cases prepared with
  | general => exact (hL.walkStep hev hf hs (.refl _ p) receiver none).bind fun _ => .pure _
  | this =>
    obtain ⟨mode, rfl⟩ := hL.frames_eq hf
    exact .pure _
  | property guard read => exact .ite Iff.rfl ((hL.onHeap _ _).bind fun _ => .pure _) (.pure _)
  | index guard =>
    dsimp only
    split
    next n safe _ =>
      refine (hev.sim hf (hs n (by simp [Segment.nodes]))).bind fun index => (hL.onHeap _ _).bind fun found => ?_
      cases found with
      | some v => exact .pure _
      | none => exact .pure _
    next => exact .pure _
  | method guard chosen types =>
    dsimp only
    split
    next name args safe _ =>
      refine (evalAll hev hf fun m hm => hs m (by simpa [Segment.nodes] using hm)).bind fun vs => ?_
      exact .ite Iff.rfl ((hL.onHeap _ _).bind fun _ => .pure _) (.pure _)
    next => exact .pure _

theorem runSteps (steps : List UnitStep) {segments : List Segment}
    (hs : ∀ n ∈ segments.flatMap Segment.nodes, L.Inside n) (receiver : Value) :
    L.Sim i (SpecializedUnit.runSteps ev f p steps segments receiver)
      (SpecializedUnit.runSteps ev' f' p steps segments receiver) := by
  have rest : ∀ pending, L.Sim i (Walk.along ev f p segments receiver pending >>= fun r => pure r.1)
      (Walk.along ev' f' p segments receiver pending >>= fun r => pure r.1) :=
    fun pending => (hL.along hev hf hs (.refl _ p) receiver pending).bind fun _ => .pure _
  induction steps generalizing segments receiver with
  | nil => cases segments <;> exact rest none
  | cons prepared steps ih =>
    cases segments with
    | nil => exact rest none
    | cons s segments =>
      have hmore : ∀ n ∈ segments.flatMap Segment.nodes, L.Inside n := fun n hn =>
        hs n (by rw [List.flatMap_cons]; exact List.mem_append_right _ hn)
      have hprobe : L.Sim i (SpecializedUnit.probe ev f p prepared s receiver)
          (SpecializedUnit.probe ev' f' p prepared s receiver) :=
        hL.probe hev hf prepared (fun n hn => hs n (by simp [hn])) receiver
      refine hprobe.bind fun found => ?_
      cases found with
      | hit v =>
        exact ih hmore v fun pending => (hL.along hev hf hmore (.refl _ p) v pending).bind fun _ => .pure _
      | miss pending => exact rest pending

theorem unitRun (hs : ∀ n ∈ p.nodes, L.Inside n) (u : SpecializedUnit) : L.Sim i (u.run ev f p) (u.run ev' f' p) :=
  .ite Iff.rfl (hL.runSteps hev hf u.steps hs .null) (hL.walkRead hev hf hs)

theorem writeLast (hs : ∀ n ∈ p.nodes, L.Inside n)
    (target v : Value) : L.Sim i (Walk.writeLast ev f p target v) (Walk.writeLast ev' f' p target v) := by
  obtain ⟨-, -, hhost, -, herr⟩ := hL.frames_agree hf
  unfold Walk.writeLast
  simp only [herr, hhost]
  split
  · exact .ite Iff.rfl (.pure _) (hL.onHeap _ _)
  next n safe hlast =>
    have hn : L.Inside n :=
      hs n (List.mem_flatMap.mpr ⟨_, List.mem_of_getLast? hlast, by simp [Segment.nodes]⟩)
    exact .ite Iff.rfl (.pure _) ((hev.sim hf hn).bind fun _ => hL.onHeap _ _)
  · exact .fail _

theorem evalEntries {entries : List (Node × Node)} (he : ∀ e ∈ entries, L.Inside e.1 ∧ L.Inside e.2) (d : Dict Value) :
    L.Sim i (CollectionLiteral.evalEntries ev f entries d) (CollectionLiteral.evalEntries ev' f' entries d) := by
  induction entries generalizing d with
  | nil => exact .pure _
  | cons e rest ih =>
    obtain ⟨hk, hv⟩ := he e (by simp)
    refine (hev.sim hf hk).bind fun kv => (hL.query fun h => kv.key h).bind fun key => ?_
    exact (hev.sim hf hv).bind fun v => ih (fun e he' => he e (by simp [he'])) _

theorem build {c : CollectionLiteral} (hc : ∀ n ∈ c.nodes, L.Inside n) : L.Sim i (c.build ev f) (c.build ev' f') := by
  cases c with
  | list items => exact (evalAll hev hf hc).bind fun vs => hL.stepHeap (Heap.newList _)
  | array items => exact (evalAll hev hf hc).bind fun vs => hL.stepHeap (Heap.newArray _)
  | map entries =>
    refine (hL.evalEntries hev hf (fun e he => ⟨hc e.1 ?_, hc e.2 ?_⟩) .empty).bind fun d => hL.stepHeap (Heap.newMap _)
    · exact List.mem_flatMap.mpr ⟨e, he, by simp⟩
    · exact List.mem_flatMap.mpr ⟨e, he, by simp⟩

end Local

end PathScript.Lockstep
