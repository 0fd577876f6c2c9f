import PathScript.Proofs.Acceleration.History
import PathScript.Proofs.Place

/-! # Containers stamped out

An optimizer keeps a container of a literal that holds nothing but literals, and
copies it from then on. Were it ever given out, a program could change it, and
with it all later copies. Between evaluations everything may be changed that
others have got hold of: containers that were there before, that were given out,
or that are newer. -/

namespace PathScript

/-! ## Copies of plain containers -/

theorem Run.mapM_eq_pure {σ ε α : Type} {f : α → Run σ ε α} {l : List α} (h : ∀ x ∈ l, f x = pure x) : l.mapM f = pure l := by
  induction l with
  | nil => rfl
  | cons x l ih =>
    obtain ⟨hx, hl⟩ := List.forall_mem_cons.mp h
    rw [List.mapM_cons, hx, ih hl, pure_bind, pure_bind]

theorem Value.copyWithin_plain {ε : Type} {h : Heap} {v : Value} (hv : v.isPlain = true) (n : Nat) :
    (copyWithin h n v : Run Heap ε Value) = pure v := by
  cases v with
  | list _ | array _ | map _ | object _ _ => cases hv
  | _ => cases n <;> rfl

/-- The copy of a container of plain values is stamped out of its template. -/
theorem Template.copy_eq {ε : Type} {h : Heap} {v : Value} {t : Template} (ht : of? h v = some t) (hplain : t.IsPlain) :
    (v.copy : Run Heap ε Value) h = .ok (t.stamp h).1 (t.stamp h).2 := by
  rw [Value.copy, Run.bind_ok (Run.get_apply h)]
  cases v with
  | list a =>
    cases ht
    rw [Value.copyWithin, Run.mapM_eq_pure fun w hw => Value.copyWithin_plain (hplain w hw) _]
    rfl
  | array a =>
    cases ht
    rw [Value.copyWithin, Run.mapM_eq_pure fun w hw => Value.copyWithin_plain (hplain w hw) _]
    rfl
  | map a =>
    cases ht
    rw [Value.copyWithin, Run.mapM_eq_pure fun e he => by rw [Value.copyWithin_plain (hplain e he), pure_bind]]
    rw [pure_bind, Dict.ofList_entries]
    rfl
  | _ => cases ht

/-! ## Cells -/

namespace Heap

variable {h h' : Heap} {r : Ref} {v : Value} {t : Template}

/-- A container is the same in two heaps. -/
def SameAt (h h' : Heap) : Ref → Prop
  | .list a => h'.lists.get? a = h.lists.get? a
  | .array a => h'.arrays.get? a = h.arrays.get? a
  | .map a => h'.maps.get? a = h.maps.get? a
  | .object a => h'.objects.get? a = h.objects.get? a

/-- A heap in which containers are as they were, except for some that are known. -/
structure Changes (h : Heap) (known : Ref → Prop) (h' : Heap) : Prop where
  kept : h.refs ⊆ h'.refs
  same : ∀ r ∈ h.refs, ¬ known r → h.SameAt h' r

theorem SameAt.template (hsame : h.SameAt h' r) (hv : v.ref? = some r) (ht : Template.of? h v = some t) :
    Template.of? h' v = some t := by
  cases v with
  | list a | array a | map a =>
    cases hv
    cases ht
    simp only [Template.of?, list, array, map, show _ = _ from hsame]
  | _ => cases ht

theorem Changes.put {known : Ref → Prop} {p : Place} (hp : known p.ref) (v : Value) : h.Changes known (h.put v p) := by
  refine ⟨fun r hr => ?_, fun r _ hunknown => ?_⟩
  · cases p <;> simpa [refs, Heap.put, modifyList, modifyArray, modifyMap, setFieldAt] using hr
  · have hne : p.ref ≠ r := fun heq => hunknown (heq ▸ hp)
    cases p <;> cases r <;> first
      | rfl
      | exact (Table.get?_update _ _ _ _).trans (if_neg fun heq => hne (congrArg _ heq))

/-- What is stamped out is a new container, and nothing else is changed. -/
theorem stamp_new (t : Template) (h : Heap) : ∃ r, (t.stamp h).1.ref? = some r ∧ r ∉ h.refs ∧ r ∈ (t.stamp h).2.refs ∧
    h.Changes (fun _ => False) (t.stamp h).2 := by
  have hold : ∀ {α : Type} (t : Table α) (a : α) {i : Nat}, i < t.size → (t.alloc a).2.get? i = t.get? i := by
    intro α t a i hi
    rw [Table.get?_alloc, Table.alloc_fst, if_neg (Nat.ne_of_lt hi)]
  cases t with
  | list items =>
    refine ⟨.list h.lists.size, rfl, by simp [refs], by simp [refs, Template.stamp, newList], ?_, fun r hr _ => ?_⟩
    · intro r hr
      cases r <;> simp [refs, Template.stamp, newList] at hr ⊢ <;> omega
    · cases r with
      | list a => exact hold h.lists items (by simpa [refs] using hr)
      | _ => rfl
  | array items =>
    refine ⟨.array h.arrays.size, rfl, by simp [refs], by simp [refs, Template.stamp, newArray], ?_, fun r hr _ => ?_⟩
    · intro r hr
      cases r <;> simp [refs, Template.stamp, newArray] at hr ⊢ <;> omega
    · cases r with
      | array a => exact hold h.arrays items (by simpa [refs] using hr)
      | _ => rfl
  | map entries =>
    refine ⟨.map h.maps.size, rfl, by simp [refs], by simp [refs, Template.stamp, newMap], ?_, fun r hr _ => ?_⟩
    · intro r hr
      cases r <;> simp [refs, Template.stamp, newMap] at hr ⊢ <;> omega
    · cases r with
      | map a => exact hold h.maps entries (by simpa [refs] using hr)
      | _ => rfl

end Heap

/-! ## Histories -/

namespace Accessor

/-- An accessor in use. -/
structure World where
  accessor : Accessor
  machine : Machine
  /-- The containers that others have got hold of. -/
  known : Ref → Prop
  /-- What was given out. -/
  results : List Value

/-- An accessor is evaluated, or something changes what is known. -/
inductive Step : World → World → Prop where
  | evaluate {w : World} {ev : Evaluator} {f : Frame} {v : Value} {a : Accessor} {m : Machine}
      (literals : ev.TakesLiterals) (ran : w.accessor.get ev f w.machine = .ok (v, a) m) :
      Step w ⟨a, m, fun r => w.known r ∨ v.ref? = some r, v :: w.results⟩
  | change {w : World} {m : Machine} (changes : w.machine.store.heap.Changes w.known m.store.heap) :
      Step w { w with
        machine := m, known := fun r => w.known r ∨ r ∈ m.store.heap.refs ∧ r ∉ w.machine.store.heap.refs }

/-- An accessor that was made for a literal on a machine, and what is known then: all that there was, and the value. -/
def World.start (m : Machine) (o : Optimized) (m' : Machine) : World :=
  ⟨o.accessor, m', fun r => r ∈ m.store.heap.refs ∨ o.value.ref? = some r, [o.value]⟩

/-- Nobody knows the container that is kept, and it still holds what it held. -/
structure World.Sealed (c : CollectionLiteral) (t : Template) (w : World) : Prop where
  accessor : w.accessor = .collection c none ∨ ∃ v r, w.accessor = .collection c (some v) ∧ v.ref? = some r ∧
    r ∈ w.machine.store.heap.refs ∧ ¬ w.known r ∧ Template.of? w.machine.store.heap v = some t
  known : ∀ r, w.known r → r ∈ w.machine.store.heap.refs
  results : ∀ v ∈ w.results, ∃ r, v.ref? = some r ∧ w.known r

variable {c : CollectionLiteral} {t : Template} {w w' : World} {ev : Evaluator} {f : Frame} {m : Machine}

theorem build_eq (hstands : t.Stands c) (hev : ev.TakesLiterals) (f : Frame) (m : Machine) :
    c.build ev f m = .ok (t.stamp m.store.heap).1 (m.withHeap (t.stamp m.store.heap).2) := by
  rw [hstands ev f hev]
  rfl

theorem copied_eq {v : Value} (hplain : t.IsPlain) (ht : Template.of? m.store.heap v = some t) :
    copied f v m = .ok (t.stamp m.store.heap).1 (m.withHeap (t.stamp m.store.heap).2) := by
  rw [copied, EvalM.onHeap_apply, Template.copy_eq ht hplain]

theorem World.Sealed.get_eq (h : w.Sealed c t) (hstands : t.Stands c) (hplain : t.IsPlain) (hev : ev.TakesLiterals) :
    w.accessor.get ev f w.machine = .ok ((t.stamp w.machine.store.heap).1, w.accessor)
      (w.machine.withHeap (t.stamp w.machine.store.heap).2) := by
  obtain haccessor | ⟨v, r, haccessor, -, -, -, ht⟩ := h.accessor
  · rw [haccessor, get, Run.bind_ok (build_eq hstands hev f w.machine)]
    rfl
  · rw [haccessor, get, Run.bind_ok (copied_eq hplain ht)]
    rfl

theorem World.Sealed.step (h : w.Sealed c t) (hstands : t.Stands c) (hplain : t.IsPlain) (hstep : Step w w') :
    w'.Sealed c t := by
  cases hstep with
  | @evaluate ev f v a m hev hran =>
    rw [h.get_eq hstands hplain hev] at hran
    cases hran
    -- The result is a new container, so it is not the one that is kept.
    obtain ⟨new, hnew, hfresh, hhas, hchanges⟩ := Heap.stamp_new t w.machine.store.heap
    refine ⟨?_, ?_, ?_⟩
    · refine h.accessor.imp_right ?_
      rintro ⟨v, r, haccessor, hv, hr, hunknown, ht⟩
      refine ⟨v, r, haccessor, hv, hchanges.kept hr, ?_, (hchanges.same r hr id).template hv ht⟩
      rintro (hknown | hresult)
      · exact hunknown hknown
      · cases hnew.symm.trans hresult
        exact hfresh hr
    · rintro r (hknown | hresult)
      · exact hchanges.kept (h.known r hknown)
      · cases hnew.symm.trans hresult
        exact hhas
    · refine List.forall_mem_cons.mpr ⟨⟨new, hnew, .inr hnew⟩, fun v hv => ?_⟩
      obtain ⟨r, hr, hknown⟩ := h.results v hv
      exact ⟨r, hr, .inl hknown⟩
  | change hchanges =>
    refine ⟨?_, ?_, fun v hv => ?_⟩
    · refine h.accessor.imp_right ?_
      rintro ⟨v, r, haccessor, hv, hr, hunknown, ht⟩
      refine ⟨v, r, haccessor, hv, hchanges.kept hr, ?_, (hchanges.same r hr hunknown).template hv ht⟩
      rintro (hknown | ⟨-, hfresh⟩)
      · exact hunknown hknown
      · exact hfresh hr
    · rintro r (hknown | ⟨hhas, -⟩)
      · exact hchanges.kept (h.known r hknown)
      · exact hhas
    · obtain ⟨r, hr, hknown⟩ := h.results v hv
      exact ⟨r, hr, .inl hknown⟩

/-- Whatever is done in between, nobody gets hold of the container that is kept. -/
theorem World.Sealed.run (h : w.Sealed c t) (hstands : t.Stands c) (hplain : t.IsPlain)
    (hrun : Relation.ReflTransGen Step w w') : w'.Sealed c t := by
  induction hrun with
  | refl => exact h
  | tail _ hstep ih => exact ih.step hstands hplain hstep

/-- The first evaluation gives what the literal builds; of a container that is kept it is a copy that is unknown. -/
theorem firstBuild_sealed (hstands : t.Stands c) (hplain : t.IsPlain) (hev : ev.TakesLiterals) (f : Frame)
    (mode : OptimizerMode) (m : Machine) :
    ∃ o m', firstBuild ev f mode c m = .ok o m' ∧ o.value = (t.stamp m.store.heap).1 ∧
      Template.of? m'.store.heap o.value = some t ∧ (World.start m o m').Sealed c t ∧
      ((mode != .safe && c.isConstant) = true → ∃ v, o.accessor = .collection c (some v)) := by
  obtain ⟨r, hr, hfresh, hhas, hchanges⟩ := Heap.stamp_new t m.store.heap
  have hvalue : Template.of? (t.stamp m.store.heap).2 (t.stamp m.store.heap).1 = some t := t.of?_stamp _
  rw [firstBuild, Run.bind_ok (build_eq hstands hev f m)]
  by_cases hkeep : (mode != .safe && c.isConstant) = true
  · rw [if_pos hkeep, Run.bind_ok (copied_eq hplain hvalue)]
    obtain ⟨r', hr', hfresh', hhas', hchanges'⟩ := Heap.stamp_new t (t.stamp m.store.heap).2
    refine ⟨_, _, rfl, rfl, (hchanges'.same r hhas id).template hr hvalue, ⟨?_, ?_, ?_⟩, fun _ => ⟨_, rfl⟩⟩
    · refine .inr ⟨_, r', rfl, hr', hhas', ?_, t.of?_stamp _⟩
      rintro (hold | hresult)
      · exact hfresh' (hchanges.kept hold)
      · cases hr.symm.trans hresult
        exact hfresh' hhas
    · rintro s (hold | hresult)
      · exact hchanges'.kept (hchanges.kept hold)
      · cases hr.symm.trans hresult
        exact hchanges'.kept hhas
    · intro v hv
      cases List.mem_singleton.mp hv
      exact ⟨r, hr, .inr hr⟩
  · rw [if_neg hkeep]
    refine ⟨_, _, rfl, rfl, hvalue, ⟨.inl rfl, ?_, ?_⟩, fun h => absurd h hkeep⟩
    · rintro s (hold | hresult)
      · exact hchanges.kept hold
      · cases hr.symm.trans hresult
        exact hhas
    · intro v hv
      cases List.mem_singleton.mp hv
      exact ⟨r, hr, .inr hr⟩

/-! ## All evaluations -/

/-- A value is what a literal builds on a machine: a new container, which holds what the template holds. -/
structure Stamps (c : CollectionLiteral) (t : Template) (ev : Evaluator) (f : Frame) (m : Machine) (v : Value) (m' : Machine) :
    Prop where
  built : ∃ m₁, c.build ev f m = .ok v m₁ ∧ Template.of? m₁.store.heap v = some t
  holds : Template.of? m'.store.heap v = some t
  fresh : ∃ r, v.ref? = some r ∧ r ∉ m.store.heap.refs

theorem Stamps.stamp (hstands : t.Stands c) (hev : ev.TakesLiterals) {m m' : Machine}
    (hholds : Template.of? m'.store.heap (t.stamp m.store.heap).1 = some t) :
    Stamps c t ev f m (t.stamp m.store.heap).1 m' := by
  obtain ⟨r, hr, hfresh, -⟩ := Heap.stamp_new t m.store.heap
  exact ⟨⟨_, build_eq hstands hev f m, t.of?_stamp _⟩, hholds, r, hr, hfresh⟩

theorem World.Sealed.notMem_results (h : w.Sealed c t) {v : Value} {r : Ref} (hv : v.ref? = some r) (hr : ¬ w.known r) :
    v ∉ w.results := by
  intro hmem
  obtain ⟨s, hs, hknown⟩ := h.results v hmem
  cases hv.symm.trans hs
  exact hr hknown

theorem World.Sealed.kept_notMem_results (h : w.Sealed c t) {u : Value} (hu : w.accessor = .collection c (some u)) :
    u ∉ w.results := by
  obtain haccessor | ⟨v, r, haccessor, hv, -, hunknown, -⟩ := h.accessor
  · cases haccessor.symm.trans hu
  · cases haccessor.symm.trans hu
    exact h.notMem_results hv hunknown

theorem World.Sealed.kept_mem_refs (h : w.Sealed c t) {u : Value} {r : Ref} (hu : w.accessor = .collection c (some u))
    (hr : u.ref? = some r) : r ∈ w.machine.store.heap.refs := by
  obtain haccessor | ⟨v, s, haccessor, hv, hs, -, -⟩ := h.accessor
  · cases haccessor.symm.trans hu
  · cases haccessor.symm.trans hu
    cases hv.symm.trans hr
    exact hs

/-- A site of a program keeps the template itself, which nobody can change. -/
theorem buildCollection_stamps (hstands : t.Stands c) (hev : ev.TakesLiterals) (f : Frame) {site : SiteId}
    (hkept : ∀ u, m.accel.collections.get? site = some (some u) → u = t) :
    ∃ v m', Access.buildCollection ev f c site m = .ok v m' ∧ Stamps c t ev f m v m' ∧
      ∀ u, m'.accel.collections.get? site = some (some u) → u = t := by
  have hbuild : c.build ev f m = _ := build_eq hstands hev f m
  have hholds := t.of?_stamp m.store.heap
  unfold Access.buildCollection
  by_cases hinterpreted : f.isInterpreted = true
  · rw [if_pos hinterpreted]
    exact ⟨_, _, hbuild, .stamp hstands hev hholds, hkept⟩
  rw [if_neg hinterpreted, Run.bind_ok (show EvalM.accel m = .ok m.accel m from rfl)]
  cases hsite : m.accel.collections.get? site with
  | some template =>
    cases template with
    | none => exact ⟨_, _, hbuild, .stamp hstands hev hholds, hkept⟩
    | some u =>
      obtain rfl := hkept u hsite
      exact ⟨_, _, rfl, .stamp hstands hev hholds, hkept⟩
  | none =>
    dsimp only
    rw [Run.bind_ok hbuild]
    refine ⟨_, _, rfl, .stamp hstands hev hholds, fun u hu => ?_⟩
    obtain hu | ⟨-, hu⟩ := Sparse.of_get?_setNew hu
    · exact hkept u hu
    · unfold Access.templateOf at hu
      split at hu
      · exact Option.some.inj (hu.symm.trans hholds)
      · cases hu

end Accessor

/-- The literal and the site of a node that holds nothing but literals. -/
def Node.constantCollection? (n : Node) : Option (CollectionLiteral × SiteId) :=
  match n.kind with
  | .collection c site => if c.isConstant then some (c, site) else none
  | _ => none

theorem Node.constantCollection?_eq_some {n : Node} {c : CollectionLiteral} {site : SiteId}
    (h : n.constantCollection? = some (c, site)) :
    n.kind = .collection c site ∧ c.isConstant = true := by
  unfold constantCollection? at h
  split at h
  · split at h
    · cases h
      exact ⟨‹_›, ‹_›⟩
    · cases h
  · cases h

/-- A literal that holds nothing but literals has one template. After the first evaluation of an accessor for it, whatever is
changed and evaluated in between, what an evaluation gives is a new container that holds what the literal would build: it is
neither the container that is kept, which nobody gets hold of, nor one of the results before. So it is at a site of the
program, which keeps the template. -/
theorem Accessor.collection_unshared {env : Compile.Env} {site function : Nat} {compiled : Compiled Node}
    (h : compileProgram env site function = .ok compiled) {n : Node} (hn : n.Occurs compiled.tree) {c : CollectionLiteral}
    {s : SiteId} (hc : n.constantCollection? = some (c, s)) : ∃ t : Template,
      (∀ (mode : OptimizerMode) (ev : Evaluator) (f : Frame) (m : Machine), ev.TakesLiterals →
        ∃ o m', firstBuild ev f mode c m = .ok o m' ∧ Stamps c t ev f m o.value m' ∧
          (mode ≠ .safe → ∃ u, o.accessor = .collection c (some u)) ∧
          ∀ w, Relation.ReflTransGen Step (.start m o m') w →
            (∀ u, w.accessor = .collection c (some u) → u ∉ w.results) ∧
            ∀ (ev : Evaluator) (f : Frame), ev.TakesLiterals →
              ∃ v m'', w.accessor.get ev f w.machine = .ok (v, w.accessor) m'' ∧ Stamps c t ev f w.machine v m'' ∧
                v ∉ w.results ∧ w.accessor ≠ .collection c (some v)) ∧
      ∀ (ev : Evaluator) (f : Frame) (m : Machine), ev.TakesLiterals →
        (∀ u, m.accel.collections.get? s = some (some u) → u = t) →
        ∃ v m', Access.buildCollection ev f c s m = .ok v m' ∧ Stamps c t ev f m v m' ∧
          ∀ u, m'.accel.collections.get? s = some (some u) → u = t := by
  obtain ⟨hk, hconstant⟩ := Node.constantCollection?_eq_some hc
  have hsound : ∀ m ∈ c.nodes, m.Sound := fun m hm => (program_of_compileProgram h).grown.sound m
    ⟨_, List.mem_singleton_self _, hn.child (by simpa [Node.children, hk] using hm)⟩
  obtain ⟨t, hplain, hstands⟩ := Template.exists_stands hconstant hsound
  refine ⟨t, fun mode ev f m hev => ?_, fun ev f m hev hkept => buildCollection_stamps hstands hev f hkept⟩
  obtain ⟨o, m', hfirst, hvalue, hholds, hsealed, hkeeps⟩ := firstBuild_sealed hstands hplain hev f mode m
  refine ⟨o, m', hfirst, hvalue ▸ .stamp hstands hev (hvalue ▸ hholds), fun hmode => hkeeps (by simp [hmode, hconstant]), ?_⟩
  intro w hrun
  have hw := hsealed.run hstands hplain hrun
  refine ⟨fun u hu => hw.kept_notMem_results hu, fun ev f hev => ?_⟩
  obtain ⟨r, hr, hfresh, -⟩ := Heap.stamp_new t w.machine.store.heap
  refine ⟨_, _, hw.get_eq hstands hplain hev, .stamp hstands hev (t.of?_stamp _), ?_, ?_⟩
  · exact hw.notMem_results hr fun hknown => hfresh (hw.known r hknown)
  · exact fun hkept => hfresh (hw.kept_mem_refs hkept hr)

/-- The last value under a key counts, in the place of the first. After a write to the first result, the next one is what the
first one was. -/
theorem Accessor.collection_unshared_written :
    let source := "['a': 1, 'b': 2, 'a': 3]"
    let e : Engine := default
    let f : Frame := e.frameOf (e.runtime .standard) .null .null none .interpreted false
    let m : Machine := (e.started (e.runtime .standard) none).machine
    let ev : Evaluator := Eval.node 1
    ∃ compiled, ∃ n : Node, ∃ c s, compileProgram ⟨source.toList, .standard, .standard, .standard⟩ 0 0 = .ok compiled ∧
      n.Occurs compiled.tree ∧ n.constantCollection? = some (c, s) ∧ (∃ v m', Access.buildCollection ev f c s m = .ok v m') ∧
      ∃ o m', firstBuild ev f .specializing c m = .ok o m' ∧ o.value = .map 0 ∧
        (m'.store.heap.map 0).entries = [("a", .int 3), ("b", .int 2)] ∧
        ∃ v m'', o.accessor.get ev f (m'.withHeap (m'.store.heap.put (.int 9) (.entry 0 "a"))) = .ok (v, o.accessor) m'' ∧
          v ≠ o.value ∧ o.accessor ≠ .collection c (some v) ∧
          Template.of? m''.store.heap v = Template.of? m'.store.heap o.value := by
  intro source e f m ev
  have h : (compileProgram ⟨source.toList, .standard, .standard, .standard⟩ 0 0).toOption.any (fun compiled =>
      compiled.tree.children.any fun n => n.constantCollection?.any fun p =>
        (firstBuild ev f .specializing p.1 m).okAnd fun o m' => decide (o.value = .map 0) &&
          decide ((m'.store.heap.map 0).entries = [("a", .int 3), ("b", .int 2)])) = true := by
    decide +kernel
  obtain ⟨compiled, hcompiled, h⟩ := exists_ok_of_any h
  obtain ⟨n, hmem, h⟩ := List.any_eq_true.mp h
  obtain ⟨⟨c, s⟩, hc, h⟩ := (Option.any_eq_true _ _).mp h
  obtain ⟨o, m', hfirst, h⟩ := Outcome.okAnd_iff.mp h
  obtain ⟨hvalue, hentries⟩ := (Bool.and_eq_true _ _).mp h
  have hn : n.Occurs compiled.tree := .under hmem (.here n)
  have hev : ev.TakesLiterals := fun hk => Lockstep.node_literal hk 1
  obtain ⟨t, hfirsts, hsites⟩ := collection_unshared hcompiled hn hc
  have hnothing : m.accel.collections = .empty := rfl
  obtain ⟨v, m₁, hsite, -⟩ := hsites ev f m hev (by simp [hnothing])
  obtain ⟨o', m'', hfirst', hstamps, -, hruns⟩ := hfirsts .specializing ev f m hev
  cases hfirst.symm.trans hfirst'
  have hput : m'.store.heap.Changes (World.start m o m').known (m'.store.heap.put (.int 9) (.entry 0 "a")) :=
    .put (.inr (of_decide_eq_true hvalue ▸ rfl)) _
  obtain ⟨-, hgets⟩ := hruns _ (.single (.change (m := m'.withHeap _) hput))
  obtain ⟨w, m₂, hget, hagain, hresults, hkept⟩ := hgets ev f hev
  refine ⟨compiled, _, c, s, hcompiled, hn, hc, ⟨v, m₁, hsite⟩, o, m', hfirst, of_decide_eq_true hvalue,
    of_decide_eq_true hentries, w, m₂, hget, ?_, hkept, hagain.holds.trans hstamps.holds.symm⟩
  exact fun heq => hresults (heq ▸ List.mem_singleton_self _)

end PathScript
