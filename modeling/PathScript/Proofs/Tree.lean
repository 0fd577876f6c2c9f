import PathScript.Ast

/-! # Parts of a tree

Most of what holds of a compiled program is local: it is a fact about each node
and its children. The children of a node stand in the order in which they are
read from the source; expressions inside of paths are children like all others.
Function bodies belong to the tree that declares them. -/

namespace PathScript

theorem Node.kind_of_literal? {n : Node} {v : Value} (h : n.literal? = some v) : n.kind = .literal v := by
  unfold literal? at h
  split at h
  next w hk => cases h; exact hk
  next => cases h

theorem Node.exists_literal {n : Node} (h : n.isLiteral = true) : ∃ v, n.kind = .literal v := by
  obtain ⟨v, hv⟩ := Option.isSome_iff_exists.mp h
  exact ⟨v, kind_of_literal? hv⟩

/-! ## Children -/

/-- The expressions in a step of a path. -/
def Segment.nodes : Segment → List Node
  | base n => [n]
  | index n _ => [n]
  | method _ args _ => args
  | _ => []

def Path.nodes (p : Path) : List Node := p.segments.flatMap Segment.nodes

/-- The expressions in what is written to. -/
def Target.nodes : Target → List Node
  | name _ => []
  | path p _ => p.nodes

/-- The elements of a collection literal: of a map, each key before its value. -/
def CollectionLiteral.nodes : CollectionLiteral → List Node
  | list items | array items => items
  | map entries => entries.flatMap fun e => [e.1, e.2]

/-- The nodes right below a node. The body of a `do` is read before its condition. -/
def Node.children (n : Node) : List Node :=
  match n.kind with
  | .literal _ | .emptyWord | .imports _ _ => []
  | .property p _ => p.nodes
  | .unary _ a | .emptyTest a _ | .group a | .asserts a _ => [a]
  | .binary _ a b | .and a b | .or a b | .regexMatch a b _ => [a, b]
  | .ternary a b c => [a, b, c]
  | .assignment t _ value _ _ => t.nodes ++ value.toList
  | .increment t _ _ => t.nodes
  | .ifChain branches otherwise => (branches.flatMap fun b => [b.1, b.2]) ++ otherwise.toList
  | .forEach _ _ subject body _ => [subject, body]
  | .loop kind init cond step body =>
    if kind = .doWhile || kind = .doUntil then body :: (init.toList ++ cond.toList ++ step.toList)
    else init.toList ++ cond.toList ++ step.toList ++ [body]
  | .withItems target items => target :: items
  | .functionDecl fn => [fn.body]
  | .call _ args => args
  | .newObject c _ => c.args
  | .collection c _ => c.nodes
  | .block stmts _ => stmts
  | .returns value => value.toList

def Node.target? (n : Node) : Option Target :=
  match n.kind with
  | .assignment t _ _ _ _ => some t
  | .increment t _ _ => some t
  | _ => none

/-- What a node reads before it writes to it. -/
def Node.updated? (n : Node) : Option Target :=
  match n.kind with
  | .assignment t (some _) _ _ _ => some t
  | .increment t _ _ => some t
  | _ => none

namespace Node

theorem target_of_updated {n : Node} {t : Target} (h : n.updated? = some t) : n.target? = some t := by
  unfold updated? at h
  unfold target?
  split at h
  next hk => rw [hk]; exact h
  next hk => rw [hk]; exact h
  next => cases h

/-- The parts of a loop over a condition, wherever the condition stands. -/
theorem mem_children_of_loop {n m : Node} {kind : LoopKind} {init cond next : Option Node} {body : Node}
    (hk : n.kind = .loop kind init cond next body) : m ∈ n.children ↔ m ∈ init ∨ m ∈ cond ∨ m ∈ next ∨ m = body := by
  simp only [children, hk]
  split
  · simp only [List.mem_cons, List.mem_append, Option.mem_toList, Option.mem_def]
    rw [or_comm, or_assoc, or_assoc]
  · simp only [List.mem_append, Option.mem_toList, List.mem_singleton, or_assoc, Option.mem_def]

end Node

/-- The number under which a node remembers something. -/
def Node.site? (n : Node) : Option SiteId :=
  match n.kind with
  | .property _ s => some s
  | .assignment (.path _ s) _ _ _ _ => some s
  | .increment (.path _ s) _ _ => some s
  | .forEach _ _ _ _ s => some s
  | .newObject _ s => some s
  | .collection _ s => some s
  | _ => none

/-- Whether a part occurs in a tree. -/
inductive Node.Occurs : Node → Node → Prop where
  | here (n : Node) : Occurs n n
  | under {m c n : Node} (child : c ∈ n.children) (occurs : Occurs m c) : Occurs m n

namespace Node.Occurs

theorem trans {a b c : Node} (hab : Occurs a b) (hbc : Occurs b c) : Occurs a c := by
  induction hbc with
  | here => exact hab
  | under child _ ih => exact .under child ih

theorem child {m c n : Node} (h : Occurs m n) (hc : c ∈ m.children) : Occurs c n :=
  trans (.under hc (.here c)) h

end Node.Occurs

/-! ## Activations -/

namespace Node

variable {n m : Node}

/-- The nodes right below a node that belong to the same activation: all but the body of a function. -/
def own (n : Node) : List Node :=
  match n.kind with
  | .functionDecl _ => []
  | _ => n.children

/-- A node is part of another, and of the same activation. -/
inductive Within (m : Node) : Node → Prop where
  | here : Within m m
  | under {n c : Node} (child : c ∈ n.own) (h : Within m c) : Within m n

theorem own_subset_children : n.own ⊆ n.children := by
  unfold own
  split
  · exact List.nil_subset _
  · exact fun _ h => h

theorem mem_own_of_target {t : Target} (h : n.target? = some t) (hm : m ∈ t.nodes) : m ∈ n.own := by
  unfold target? at h
  unfold own children
  split at h
  next hk =>
    obtain rfl := Option.some.inj h
    rw [hk]
    exact List.mem_append_left _ hm
  next hk =>
    obtain rfl := Option.some.inj h
    rw [hk]
    exact hm
  next => cases h

theorem mem_own_of_loop {kind : LoopKind} {init cond next : Option Node} {body : Node}
    (hk : n.kind = .loop kind init cond next body) : m ∈ n.own ↔ m ∈ init ∨ m ∈ cond ∨ m ∈ next ∨ m = body := by
  have hown : n.own = n.children := by simp only [own, hk]
  rw [hown, mem_children_of_loop hk]

theorem Within.occurs (h : m.Within n) : m.Occurs n := by
  induction h with
  | here => exact .here _
  | under child _ ih => exact .under (own_subset_children child) ih

end Node

end PathScript
