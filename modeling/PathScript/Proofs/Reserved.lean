import PathScript.Proofs.PathText

/-! # Reserved words

Names come into a tree from many places, each with a test of its own. In the
body of a `with`, a name that is assigned to becomes a property of the subject,
and properties may be called anything: `this.null = 1` is fine. So what matters
there is what stands in the source. -/

namespace PathScript

variable {env : Compile.Env} {site function : Nat} {c : Compiled Node} {n : Node} {p : Path}

/-- The names that a node binds: those of targets, items, functions and parameters. -/
def Node.bindings (n : Node) : List String :=
  match n.kind with
  | .assignment (.name name) _ _ _ _ | .increment (.name name) _ _ | .forEach name _ _ _ _ => [name]
  | .functionDecl fn => fn.name :: fn.params.map (·.name)
  | _ => []

/-- Whether a path starts with something that has a meaning by itself: a name, `this` or an expression. -/
def Path.isRooted (p : Path) : Bool :=
  match p.segments with
  | .root _ :: _ | .this :: _ | .base _ :: _ => true
  | _ => false

theorem Path.Spelled.isRooted (h : p.Spelled) : p.isRooted = true := by
  obtain ⟨words, hwords, -⟩ := h.whole
  unfold Path.shape at hwords
  unfold Path.isRooted
  cases hsegments : p.segments with
  | nil => rw [hsegments] at hwords; cases hwords
  | cons s steps =>
    rw [hsegments] at hwords
    obtain ⟨first, -⟩ := hwords
    cases s with
    | root | this | base => rfl
    | property | index | method => cases first

/-- Behind `this`, names are properties. -/
theorem Path.root_notMem_rebased (p : Path) (name : String) : .root name ∉ p.rebased.segments := by
  intro hroot
  rcases List.mem_cons.mp hroot with heq | hmem
  · cases heq
  · obtain ⟨s, -, heq⟩ := List.mem_map.mp hmem
    cases s <;> cases heq

theorem Node.SoundIn.isReserved {Read : Path → Prop} (h : n.SoundIn Read) {name : String} (hname : name ∈ n.bindings) :
    isReserved name = false := by
  unfold Node.SoundIn at h
  unfold Node.bindings at hname
  cases hkind : n.kind with
  | assignment target op value ty register =>
    rw [hkind] at h hname
    cases target with
    | name bound => cases List.mem_singleton.mp hname; exact h
    | path p site => cases hname
  | increment target delta before =>
    rw [hkind] at h hname
    cases target with
    | name bound => cases List.mem_singleton.mp hname; exact h
    | path p site => cases hname
  | forEach item ty subject body site => rw [hkind] at h hname; cases List.mem_singleton.mp hname; exact h
  | functionDecl fn =>
    rw [hkind] at h hname
    rcases List.mem_cons.mp hname with rfl | hparam
    · exact h.2.1
    · obtain ⟨param, hmem, rfl⟩ := List.mem_map.mp hparam
      exact h.2.2 param hmem
  | _ => rw [hkind] at hname; cases hname

/-- In a compiled program no node binds a reserved word, and no path starts with one. Every path stands in the source as
it is, or is put behind `this` and stands there without it; what stands in the source starts with a name that is no
reserved word, with `this` or with an expression. -/
theorem reserved_never_bound (h : compileProgram env site function = .ok c) (hn : n.Occurs c.tree) :
    (∀ name ∈ n.bindings, isReserved name = false) ∧
    ∀ p, n.path? = some p → (∀ name, .root name ∈ p.segments → isReserved name = false) ∧
      ∃ q : Path, (p = q ∨ p = q.rebased) ∧ Text.slice? env.source q.span.start q.span.stop = some q.text.toList ∧
        q.isRooted = true ∧ ∀ name, .root name ∈ q.segments → isReserved name = false := by
  have hsound := (node_of_compileProgram h hn).2
  refine ⟨fun name => hsound.isReserved, fun p hp => ?_⟩
  cases hsound.targeted hp with
  | read hq =>
    have hfree : ∀ name, .root name ∈ p.segments → isReserved name = false := fun _ => hq.spelled.isReserved_root
    exact ⟨hfree, p, .inl rfl, hq.text, hq.spelled.isRooted, hfree⟩
  | @rebased q s steps hq hs hne =>
    refine ⟨fun name hroot => ?_, q, .inr rfl, hq.text, hq.spelled.isRooted, fun name => hq.spelled.isReserved_root⟩
    exact absurd hroot (q.root_notMem_rebased name)

/-- A function with parameters, and a `with` that assigns to a property called `null` and to one below a name. -/
theorem reserved_never_bound_with :
    let env : Compile.Env := ⟨"def f(a, int b) \x7b c = a \x7d with (m) \x7b this.null = 1, n.k += 2 \x7d".toList,
      .standard, .standard, .standard⟩
    ∃ c : Compiled Node, compileProgram env 0 0 = .ok c ∧
      (∃ n : Node, n.Occurs c.tree ∧ n.bindings = ["f", "a", "b"] ∧ ∀ name ∈ n.bindings, isReserved name = false) ∧
      ∃ (n : Node) (q : Path), n.Occurs c.tree ∧ n.path? = some q.rebased ∧ q.text = "n.k" ∧ q.isRooted = true ∧
        ∀ name, .root name ∈ q.segments → isReserved name = false := by
  intro env
  let parts (c : Compiled Node) : List Node := c.tree.children ++ c.tree.children.flatMap Node.children
  have h : (compileProgram env 0 0).toOption.any (fun c =>
      decide (∃ n ∈ parts c, n.bindings = ["f", "a", "b"]) && decide (∃ n ∈ parts c, ∃ p ∈ n.path?, p.text = "this.n.k" ∧
        Text.slice? env.source p.span.start p.span.stop = some "n.k".toList)) = true := by decide +kernel
  obtain ⟨c, hcompiled, h⟩ := exists_ok_of_any h
  have occurs : ∀ n ∈ parts c, n.Occurs c.tree := by
    intro n hn
    rcases List.mem_append.mp hn with hn | hn
    · exact .under hn (.here n)
    · obtain ⟨m, hm, hn⟩ := List.mem_flatMap.mp hn
      exact .under hm (.under hn (.here n))
  obtain ⟨hfunction, htarget⟩ := (Bool.and_eq_true _ _).mp h
  obtain ⟨n, hn, hbindings⟩ := of_decide_eq_true hfunction
  obtain ⟨m, hm, p, hp, htext, hslice⟩ := of_decide_eq_true htarget
  refine ⟨c, hcompiled, ⟨n, occurs n hn, hbindings, (reserved_never_bound hcompiled (occurs n hn)).1⟩, m, ?_⟩
  obtain ⟨-, q, rfl | rfl, hquoted, hrooted, hfree⟩ := (reserved_never_bound hcompiled (occurs m hm)).2 p hp
  · rw [hslice, htext] at hquoted
    exact absurd hquoted (by decide)
  · have hq : q.text = "n.k" := String.toList_injective (Option.some.inj (hquoted.symm.trans hslice))
    exact ⟨q, occurs m hm, hp, hq, hrooted, hfree⟩

end PathScript
