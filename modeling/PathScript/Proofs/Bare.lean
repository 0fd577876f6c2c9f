import PathScript.Compile
import PathScript.Proofs.Prepared

/-! # Bare trees

What a compilation records of static types and of source lines sits in two
places: on every node, and on every path. A tree without those records is *bare*.
Two trees are the same program if they are equal, bare. Of a node that is made, a
compilation looks only at its outline again: the value of a literal, or the
segments of a path. -/

namespace PathScript

/-- What is known about a node when neither types nor lines are recorded. -/
def Info.bare (i : Info) : Info := { i with egress := .any, line := none }

mutual

def Node.bare : Node → Node
  | ⟨info, kind⟩ => ⟨info.bare, kind.bare⟩

def NodeKind.bare : NodeKind → NodeKind
  | .literal v => .literal v
  | .emptyWord => .emptyWord
  | .property p site => .property p.bare site
  | .unary op n => .unary op n.bare
  | .binary op l r => .binary op l.bare r.bare
  | .and l r => .and l.bare r.bare
  | .or l r => .or l.bare r.bare
  | .ternary c t e => .ternary c.bare t.bare e.bare
  | .emptyTest s negate => .emptyTest s.bare negate
  | .regexMatch s p compiled => .regexMatch s.bare p.bare compiled
  | .assignment t op v decl register => .assignment t.bare op (Node.bare? v) decl register
  | .increment t delta before => .increment t.bare delta before
  | .ifChain branches otherwise => .ifChain (Node.barePairs branches) (Node.bare? otherwise)
  | .forEach item ty subject body site => .forEach item ty subject.bare body.bare site
  | .loop kind init cond step body =>
    .loop kind (Node.bare? init) (Node.bare? cond) (Node.bare? step) body.bare
  | .withItems t items => .withItems t.bare (Node.bares items)
  | .functionDecl f => .functionDecl f.bare
  | .call name args => .call name (Node.bares args)
  | .newObject c site => .newObject c.bare site
  | .collection c site => .collection c.bare site
  | .group n => .group n.bare
  | .block stmts ownScope => .block (Node.bares stmts) ownScope
  | .returns v => .returns (Node.bare? v)
  | .imports name v => .imports name v
  | .asserts n text => .asserts n.bare text

def Node.bare? : Option Node → Option Node
  | some n => some n.bare
  | none => none

def Node.bares : List Node → List Node
  | [] => []
  | n :: rest => n.bare :: Node.bares rest

def Node.barePairs : List (Node × Node) → List (Node × Node)
  | [] => []
  | (a, b) :: rest => (a.bare, b.bare) :: Node.barePairs rest

def Target.bare : Target → Target
  | .name n => .name n
  | .path p site => .path p.bare site

def Path.bare : Path → Path
  | ⟨text, span, segments, cuts, _⟩ => ⟨text, span, Segment.bares segments, cuts, none⟩

def Segment.bares : List Segment → List Segment
  | [] => []
  | s :: rest => s.bare :: Segment.bares rest

def Segment.bare : Segment → Segment
  | .root name => .root name
  | .this => .this
  | .base n => .base n.bare
  | .property name safe => .property name safe
  | .index n safe => .index n.bare safe
  | .method name args safe => .method name (Node.bares args) safe

def CollectionLiteral.bare : CollectionLiteral → CollectionLiteral
  | .list items => .list (Node.bares items)
  | .array items => .array (Node.bares items)
  | .map entries => .map (Node.barePairs entries)

def Creation.bare : Creation → Creation
  | ⟨name, args, span⟩ => ⟨name, Node.bares args, span⟩

/-- A function whose body has no recorded types and lines. -/
def Function.bare : Function → Function
  | ⟨id, name, params, body, registers, freeVars, span⟩ =>
    ⟨id, name, params, body.bare, registers, freeVars, span⟩

end

@[simp] theorem Node.bare?_eq_map (v : Option Node) : Node.bare? v = v.map Node.bare := by
  cases v <;> rfl

@[simp] theorem Node.bares_eq_map (ns : List Node) : Node.bares ns = ns.map Node.bare := by
  induction ns with
  | nil => rfl
  | cons n rest ih => rw [Node.bares, ih, List.map_cons]

@[simp] theorem Node.barePairs_eq_map (ps : List (Node × Node)) :
    Node.barePairs ps = ps.map (Prod.map Node.bare Node.bare) := by
  induction ps with
  | nil => rfl
  | cons p rest ih => rw [Node.barePairs, ih, List.map_cons, Prod.map]

@[simp] theorem Segment.bares_eq_map (ss : List Segment) : Segment.bares ss = ss.map Segment.bare := by
  induction ss with
  | nil => rfl
  | cons s rest ih => rw [Segment.bares, ih, List.map_cons]

namespace Node

@[simp] theorem kind_bare (n : Node) : n.bare.kind = n.kind.bare := by
  cases n; rfl

@[simp] theorem info_bare (n : Node) : n.bare.info = n.info.bare := by
  cases n; rfl

@[simp] theorem span_bare (n : Node) : n.bare.span = n.span := by
  cases n; rfl

end Node

namespace Path

@[simp] theorem bare_rebased (p : Path) : p.rebased.bare = p.bare.rebased := by
  have hseg : ∀ s : Segment, s.rebased.bare = s.bare.rebased := fun s => by cases s <;> rfl
  obtain ⟨text, span, segments, cuts, line⟩ := p
  simp [rebased, bare, Segment.bare, hseg]

end Path

/-! ## Outlines -/

/-- What is seen of a segment: its form, and an index if it is a literal. -/
def Segment.outline (s : Segment) : Segment.Shape × Option (Span × Value) :=
  (s.shape, match s with
    | .index n _ => n.literal?.map (n.span, ·)
    | _ => none)

def Path.outline (p : Path) : String × Span × List Nat × List (Segment.Shape × Option (Span × Value)) :=
  (p.text, p.span, p.cuts, p.segments.map Segment.outline)

/-- What is seen of a node. -/
inductive Outline where
  | literal (v : Value)
  | emptyWord
  | path (p : String × Span × List Nat × List (Segment.Shape × Option (Span × Value)))
  | other

def Outline.literal? : Outline → Option Value
  | literal v => some v
  | _ => none

def NodeKind.outline : NodeKind → Outline
  | .literal v => .literal v
  | .emptyWord => .emptyWord
  | .property p _ => .path p.outline
  | _ => .other

namespace Path

theorem asName?_eq_shape (p : Path) : p.asName? = match p.shape with
    | [.root name] => some name
    | _ => none := by
  unfold asName? shape
  rcases p.segments with _ | ⟨s, _ | _⟩
  · rfl
  · cases s <;> rfl
  · cases s <;> rfl

variable {p p' : Path} (h : p.outline = p'.outline)
include h

theorem shape_of_outline : p.shape = p'.shape := by
  have hsegments : (p.segments.map Segment.outline).map Prod.fst = (p'.segments.map Segment.outline).map Prod.fst :=
    congrArg (·.2.2.2.map Prod.fst) h
  rw [List.map_map, List.map_map] at hsegments
  exact hsegments

theorem asName?_of_outline : p.asName? = p'.asName? := by
  rw [asName?_eq_shape, shape_of_outline h, asName?_eq_shape]

theorem isAssignable_of_outline : p.isAssignable = p'.isAssignable := by
  have seen : ∀ p : Path, p.isAssignable = match p.shape.getLast? with
      | none | some (.method _ _) | some .this | some .base => false
      | _ => true := by
    intro p
    unfold isAssignable shape
    rw [List.getLast?_map]
    cases p.segments.getLast? with
    | none => rfl
    | some s => cases s <;> rfl
  rw [seen, shape_of_outline h, seen]

theorem outline_rebased : p.rebased.outline = p'.rebased.outline := by
  have seen : Segment.outline ∘ Segment.rebased = Prod.map Segment.Shape.rebased id ∘ Segment.outline := by
    funext s
    cases s <;> rfl
  simp only [outline, Prod.mk.injEq] at h
  obtain ⟨htext, hspan, hcuts, hsegments⟩ := h
  simp only [outline, Path.rebased, List.map_cons, List.map_map, seen, htext, hspan, hcuts]
  rw [← List.map_map, hsegments, List.map_map]

end Path

/-- Nodes with one outline at one place. Where `w` holds they are the same program, whatever types and lines are
recorded. -/
structure Node.Alike (w : Prop) (n n' : Node) : Prop where
  span : n.span = n'.span
  outline : n.kind.outline = n'.kind.outline
  bare : w → n.bare = n'.bare

namespace Node.Alike

variable {w : Prop} {n n' : Node}

theorem eq (h : n.Alike True n') : n.bare = n'.bare := h.bare trivial

theorem literal? (h : n.Alike w n') : n.literal? = n'.literal? := by
  have seen : ∀ n : Node, n.literal? = n.kind.outline.literal? := by
    intro n
    unfold Node.literal?
    cases n.kind <;> rfl
  rw [seen, h.outline, seen]

/-- A node that is like one of a path is one of a path that is like it. -/
theorem property {p : Path} {site : SiteId} (h : n.Alike w n') (hk : n.kind = .property p site) :
    ∃ p' site', n'.kind = .property p' site' ∧ p.outline = p'.outline ∧ (w → p.bare = p'.bare ∧ site = site') := by
  have houtline := h.outline
  rw [hk] at houtline
  cases hk' : n'.kind with
  | property p' site' =>
    rw [hk'] at houtline
    refine ⟨p', site', rfl, Outline.path.inj houtline, fun hw => ?_⟩
    have hkind : n.kind.bare = n'.kind.bare := by rw [← kind_bare, h.bare hw, kind_bare]
    rw [hk, hk'] at hkind
    exact NodeKind.property.inj hkind
  | _ => rw [hk'] at houtline; cases houtline

end Node.Alike

/-- The outcome of a compilation without recorded types and lines. -/
def Compiled.bare {α : Type} (f : α → α) (c : Compiled α) : Compiled α :=
  ⟨f c.tree, c.functions.map Function.bare, c.nextSite⟩

end PathScript
