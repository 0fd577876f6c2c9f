import PathScript.Proofs.Follows
import PathScript.Proofs.Precedence

/-! # Expressions side by side

First the parts that make a node from nodes that were read before; then the
readers themselves, which call each other on what is left of a stream and on the
insides of groups. -/

namespace PathScript.Compile

variable {w : Prop} {n n' l l' r r' : Node} {ts : Tokens}

/-! ## Operators -/

theorem isEmptyWord_eq (h : n.Alike w n') : isEmptyWord n = isEmptyWord n' := by
  have seen : ∀ n : Node, isEmptyWord n = match n.kind.outline with
      | .emptyWord => true
      | _ => false := by
    intro n
    unfold isEmptyWord
    cases n.kind <;> rfl
  rw [seen, h.outline, seen]

theorem follows_regexNode (hl : l.Alike w l') (hr : r.Alike w r') :
    Follows w (regexNode l r) (regexNode l' r') (Node.Alike w) := by
  have made : ∀ compiled, Follows w (node (l.span.cover r.span) .bool (.regexMatch l r compiled))
      (node (l'.span.cover r'.span) .bool (.regexMatch l' r' compiled)) (Node.Alike w) := fun compiled =>
    follows_node (by rw [hl.span, hr.span]) (fun hw => by simp [NodeKind.bare, hl.bare hw, hr.bare hw]) _ _
  unfold regexNode
  rw [← hr.literal?]
  cases r.literal? with
  | none => exact .next (.pure rfl) made
  | some v =>
    cases v with
    | str text =>
      dsimp only
      cases Regex.whole text with
      | ok compiled => exact .next (.pure rfl) made
      | error e => exact .bind (R := fun _ _ => False) .fail fun _ _ h => h.elim
    | _ => exact .next (.pure rfl) made

theorem follows_valuesNode (hl : l.Alike w l') (hr : r.Alike w r') (op : Operator) (span : Span) :
    Follows w (valuesNode op l r span) (valuesNode op l' r' span) (Node.Alike w) := by
  have hconstant : constant? op l r = constant? op l' r' := by
    unfold constant?
    rw [hl.literal?, hr.literal?]
  unfold valuesNode
  rw [hconstant]
  split
  · exact follows_literal _ rfl
  · exact follows_node rfl (fun hw => by simp [NodeKind.bare, hl.bare hw, hr.bare hw]) _ _

theorem follows_binaryNode (op : Operator) (hl : l.Alike w l') (hr : r.Alike w r') :
    Follows w (binaryNode op l r) (binaryNode op l' r') (Node.Alike w) := by
  have hspan : l.span.cover r.span = l'.span.cover r'.span := by rw [hl.span, hr.span]
  have equality : Follows w
      (if isEmptyWord r then node (l.span.cover r.span) .bool (.emptyTest l (op == .ne))
        else if isEmptyWord l then node (l.span.cover r.span) .bool (.emptyTest r (op == .ne))
        else valuesNode op l r (l.span.cover r.span))
      (if isEmptyWord r' then node (l'.span.cover r'.span) .bool (.emptyTest l' (op == .ne))
        else if isEmptyWord l' then node (l'.span.cover r'.span) .bool (.emptyTest r' (op == .ne))
        else valuesNode op l' r' (l'.span.cover r'.span)) (Node.Alike w) := by
    rw [hspan]
    have test : ∀ {n n' : Node}, n.Alike w n' → Follows w (node (l'.span.cover r'.span) .bool (.emptyTest n (op == .ne)))
        (node (l'.span.cover r'.span) .bool (.emptyTest n' (op == .ne))) (Node.Alike w) :=
      fun h => follows_node rfl (fun hw => by simp [NodeKind.bare, h.bare hw]) _ _
    exact .ite (by rw [isEmptyWord_eq hr]) (fun _ => test hl) fun _ => .ite (by rw [isEmptyWord_eq hl]) (fun _ => test hr)
      fun _ => follows_valuesNode hl hr op _
  unfold binaryNode
  cases op with
  | and | or => exact follows_node hspan (fun hw => by simp [NodeKind.bare, hl.bare hw, hr.bare hw]) _ _
  | regexMatch => exact follows_regexNode hl hr
  | eq | ne => exact equality
  | _ => exact hspan ▸ follows_valuesNode hl hr _ _

/-! ### Sequences of operators -/

/-- Operators with their right operands, side by side. -/
abbrev Items (w : Prop) (is is' : List (Operator × Node)) : Prop :=
  List.Forall₂ (fun a b => a.1 = b.1 ∧ a.2.Alike w b.2) is is'

section Precedence

open Precedence

/-- Groupings of one shape, with their operands side by side. -/
inductive SameShape (w : Prop) : Grouping Node → Grouping Node → Prop where
  | leaf {a a' : Node} (h : a.Alike w a') : SameShape w (.leaf a) (.leaf a')
  | join (op : Operator) {l l' r r' : Grouping Node} (hl : SameShape w l l') (hr : SameShape w r r') :
    SameShape w (.join op l r) (.join op l' r')

theorem SameShape.extend {g g' : Grouping Node} (h : SameShape w g g') (op : Operator) (hn : n.Alike w n') :
    SameShape w (g.extend op n) (g'.extend op n') := by
  induction h with
  | leaf h => exact .join op (.leaf h) (.leaf hn)
  | join op' hl hr _ ihr =>
    unfold Grouping.extend
    split
    · exact .join op (.join op' hl hr) (.leaf hn)
    · exact .join op' hl ihr

theorem sameShape_ofSequence {items items' : List (Operator × Node)} (h : n.Alike w n') (hi : Items w items items') :
    SameShape w (.ofSequence n items) (.ofSequence n' items') := by
  have extended : ∀ {g g'}, SameShape w g g' → SameShape w (items.foldl (fun g item => g.extend item.1 item.2) g)
      (items'.foldl (fun g item => g.extend item.1 item.2) g') := by
    induction hi with
    | nil => exact id
    | @cons a b _ _ hab _ ih =>
      obtain ⟨op, rhs⟩ := a
      obtain ⟨_, rhs'⟩ := b
      obtain ⟨rfl, hrhs⟩ := hab
      exact fun hg => ih (hg.extend op hrhs)
  exact extended (.leaf h)

theorem follows_build {g g' : Grouping Node} (h : SameShape w g g') :
    Follows w (g.build binaryNode) (g'.build binaryNode) (Node.Alike w) := by
  induction h with
  | leaf h => exact .pure h
  | join op _ _ ihl ihr => exact .bind ihl fun _ _ hl => .bind ihr fun _ _ hr => follows_binaryNode op hl hr

theorem follows_fold {items items' : List (Operator × Node)} (h : n.Alike w n') (hi : Items w items items') :
    Follows w (fold binaryNode n items) (fold binaryNode n' items') (Node.Alike w) := by
  rw [fold_eq, fold_eq]
  exact follows_build (sameShape_ofSequence h hi)

end Precedence

/-! ## Targets and assignments -/

/-- Targets that write to the same place. -/
inductive SameTarget (w : Prop) : Target → Target → Prop where
  | name (name : String) : SameTarget w (.name name) (.name name)
  | path {p p' : Path} {site site' : SiteId} (h : w → p.bare = p'.bare ∧ site = site') :
    SameTarget w (.path p site) (.path p' site')

theorem SameTarget.bare {t t' : Target} (h : SameTarget w t t') (hw : w) : t.bare = t'.bare := by
  cases h with
  | name name => rfl
  | path h => rw [Target.bare, Target.bare, (h hw).1, (h hw).2]

theorem follows_targetOf (h : n.Alike w n') : Follows w (targetOf n) (targetOf n') (SameTarget w) := by
  unfold targetOf
  rw [← h.span]
  refine .next (steady_sourceText n.span) fun text => .ite Iff.rfl (fun _ => .fail) fun _ => ?_
  cases hk : n.kind with
  | property p site =>
    obtain ⟨p', site', hk', hp, hbare⟩ := h.property hk
    rw [hk']
    dsimp only
    rw [← Path.asName?_of_outline hp, ← Path.isAssignable_of_outline hp]
    split
    · exact .pure (.name _)
    · refine .ite Iff.rfl (fun _ => ?_) fun _ => .fail
      exact .bind follows_newSite fun _ _ hsite => .pure (.path fun hw => ⟨(hbare hw).1, hsite hw⟩)
  | _ => exact .fail

theorem follows_bindTarget {t t' : Target} (h : SameTarget w t t') (ty ty' : Ty) (offset : Nat) :
    Follows w (bindTarget t ty offset) (bindTarget t' ty' offset) Eq := by
  cases h with
  | name name =>
    refine .bind .state fun st st' hst => .ite (by rw [hst.declared?]) (fun _ => ?_) fun _ => steady_allocate _
    exact .bind (follows_declare (by rfl) _ _) fun _ _ _ => steady_allocate _
  | path => exact .pure rfl

theorem follows_assignTo {t t' : Target} {span span' : Span} (ht : SameTarget w t t') (hspan : span = span')
    (ty ty' : Ty) (op : Option Operator) (h : n.Alike w n') :
    Follows w (assignTo t span ty op n) (assignTo t' span' ty' op n') (Node.Alike w) := by
  unfold assignTo
  rw [hspan, h.span]
  refine .bind (follows_bindTarget ht _ _ _) fun register _ hr => ?_
  subst hr
  exact follows_node rfl (fun hw => by simp [NodeKind.bare, ht.bare hw, h.bare hw]) _ _

theorem follows_assignment (hl : l.Alike w l') (op : Option Operator) (h : n.Alike w n') :
    Follows w (assignment l op n) (assignment l' op n') (Node.Alike w) :=
  .bind (follows_targetOf hl) fun _ _ ht => follows_assignTo ht hl.span _ _ op h

theorem follows_increment (hl : l.Alike w l') (delta : Int64) (before : Bool) {span span' : Span}
    (hspan : span = span') :
    Follows w (increment l delta before span) (increment l' delta before span') (Node.Alike w) :=
  .bind (follows_targetOf hl) fun _ _ ht => follows_node hspan (fun hw => by simp [NodeKind.bare, ht.bare hw]) _ _

theorem rebase_eq {p : Path} {site : SiteId} (h : n.kind = .property p site) : rebase n =
    if p.shape.head? = some .this then pure n else pure ⟨n.info, .property p.rebased site⟩ := by
  unfold rebase
  rw [h]
  dsimp only
  cases hs : p.segments with
  | nil => simp [Path.shape, hs]
  | cons s rest => cases s <;> simp [Path.shape, hs, Segment.shape]

theorem follows_rebase (h : n.Alike w n') : Follows w (rebase n) (rebase n') (Node.Alike w) := by
  cases hk : n.kind with
  | property p site =>
    obtain ⟨p', site', hk', hp, hbare⟩ := h.property hk
    rw [rebase_eq hk, rebase_eq hk', Path.shape_of_outline hp]
    refine .ite Iff.rfl (fun _ => .pure h) fun _ => .pure ⟨h.span, congrArg Outline.path (Path.outline_rebased hp), fun hw => ?_⟩
    have hinfo : n.info.bare = n'.info.bare := by rw [← n.info_bare, h.bare hw, n'.info_bare]
    simp [Node.bare, NodeKind.bare, hinfo, hbare hw]
  | _ =>
    unfold rebase
    rw [hk]
    exact .fail

/-! ## Parts of expressions -/

theorem follows_numberNode (t : Token) (minus : Option Span) :
    Follows w (numberNode t minus) (numberNode t minus) (Node.Alike w) :=
  .read ⟨_, rfl⟩ fun _ => follows_literal _ rfl

theorem follows_negation (minus : Span) (h : n.Alike w n') : Follows w (negation minus n) (negation minus n') (Node.Alike w) := by
  unfold negation
  rw [h.literal?, h.span]
  dsimp only
  split
  · exact follows_literal _ rfl
  · exact follows_node rfl (fun hw => by simp [NodeKind.bare, h.bare hw]) _ _

/-- Segments with one outline, which are the same where `w` holds. -/
structure SameSegment (w : Prop) (s s' : Segment) : Prop where
  outline : s.outline = s'.outline
  bare : w → s.bare = s'.bare

theorem SameSegment.refl (s : Segment) : SameSegment w s s := ⟨rfl, fun _ => rfl⟩

theorem SameSegment.index (h : n.Alike w n') (safe : Bool) : SameSegment w (.index n safe) (.index n' safe) where
  outline := by simp only [Segment.outline, Segment.shape, h.literal?, h.span]
  bare hw := by rw [Segment.bare, Segment.bare, h.bare hw]

/-- Steps of a path that end at the same places. -/
abbrev SameSteps (w : Prop) (ss ss' : List (Segment × Nat)) : Prop :=
  List.Forall₂ (fun s s' => SameSegment w s.1 s'.1 ∧ s.2 = s'.2) ss ss'

theorem SameSteps.map_eq {ss ss' : List (Segment × Nat)} (h : SameSteps w ss ss') :
    (ss.map (·.1)).map Segment.outline = (ss'.map (·.1)).map Segment.outline ∧ ss.map (·.2) = ss'.map (·.2) ∧
      (w → (ss.map (·.1)).map Segment.bare = (ss'.map (·.1)).map Segment.bare) := by
  induction h with
  | nil => exact ⟨rfl, rfl, fun _ => rfl⟩
  | cons hs _ ih =>
    simp only [List.map_cons, hs.1.outline, hs.2, ih.1, ih.2.1, true_and]
    exact fun hw => by rw [hs.1.bare hw, ih.2.2 hw]

theorem follows_pathNode (start : Nat) {ss ss' : List (Segment × Nat)} (h : SameSteps w ss ss') :
    Follows w (pathNode start ss) (pathNode start ss') (Node.Alike w) := by
  obtain ⟨houtline, hends, hbare⟩ := h.map_eq
  have hcuts : ss.map (fun s => s.2 - start) = ss'.map (fun s => s.2 - start) := by
    simpa [Function.comp_def] using congrArg (List.map (· - start)) hends
  unfold pathNode
  rw [hcuts]
  refine .bind ((checks_pathType _ _).follows (checks_pathType _ _)) fun ty ty' _ => ?_
  refine .bind (follows_info rfl ty ty') fun i i' hi => .next (steady_sourceText _) fun text => ?_
  refine .bind follows_newSite fun site site' hsite => .pure ⟨?_, ?_, fun hw => ?_⟩
  · exact (congrArg Info.span hi : i.bare.span = i'.bare.span)
  · simp only [NodeKind.outline, Path.outline, houtline]
  · simp only [Node.bare, NodeKind.bare, Path.bare, Segment.bares_eq_map, hi, hbare hw, hsite hw]

theorem follows_collectionNode (span : Span) {spec spec' : CollectionLiteral} (h : w → spec.bare = spec'.bare) :
    Follows w (collectionNode span spec) (collectionNode span spec') (Node.Alike w) :=
  .bind follows_newSite fun _ _ hsite =>
    follows_node rfl (fun hw => by rw [NodeKind.bare, NodeKind.bare, h hw, hsite hw]) _ _

/-! ## Results of readers -/

/-- Nodes that are alike, with the same rest. -/
def Parsed.Alike (w : Prop) (a b : Parsed ts) : Prop := a.node.Alike w b.node ∧ a.rest = b.rest

/-- A reader of nodes that are alike in both compilations. -/
abbrev ReadsAlike (w : Prop) (x : CompileM (Parsed ts)) : Prop := Follows w x x (Parsed.Alike w)

/-- What follows a reader starts with nodes that are alike, and with the same rest. -/
theorem Follows.parsed {γ δ : Type} {x y : CompileM (Parsed ts)} {f : Parsed ts → CompileM γ} {g : Parsed ts → CompileM δ}
    {S : γ → δ → Prop} (hx : Follows w x y (Parsed.Alike w)) (hf : ∀ n n' (rest : Tokens) (le : rest.size ≤ ts.size),
      n.Alike w n' → Follows w (f ⟨n, rest, le⟩) (g ⟨n', rest, le⟩) S) : Follows w (x >>= f) (y >>= g) S := by
  refine .bind hx ?_
  rintro ⟨n, rest, le⟩ ⟨n', _, _⟩ ⟨hn, rfl⟩
  exact hf n n' rest le hn

abbrev AllAlike (w : Prop) (ns ns' : List Node) : Prop := w → ns.map Node.bare = ns'.map Node.bare

theorem AllAlike.cons {ns ns' : List Node} (h : n.Alike w n') (hns : AllAlike w ns ns') :
    AllAlike w (n :: ns) (n' :: ns') := by
  intro hw
  rw [List.map_cons, List.map_cons, h.bare hw, hns hw]

def Head.Alike (w : Prop) : Head → Head → Prop
  | expression n, expression n' => n.Alike w n'
  | step s, step s' => SameSegment w s s'
  | _, _ => False

/-- Primaries that are alike, at the same place and with the same rest. -/
def Primary.Alike (w : Prop) (a b : Primary ts) : Prop := a.head.Alike w b.head ∧ a.span = b.span ∧ a.rest = b.rest

def Elements.Alike (w : Prop) : Elements → Elements → Prop
  | items ns, items ns' => AllAlike w ns ns'
  | entries ps, entries ps' => w → ps.map (Prod.map Node.bare Node.bare) = ps'.map (Prod.map Node.bare Node.bare)
  | _, _ => False

theorem Elements.Alike.literal {e e' : Elements} (h : e.Alike w e') (isArray : Bool) (hw : w) :
    (e.literal isArray).bare = (e'.literal isArray).bare := by
  cases e <;> cases e'
  · cases isArray <;> simpa [Elements.literal, CollectionLiteral.bare, Elements.Alike] using h hw
  · cases h
  · cases h
  · simpa [Elements.literal, CollectionLiteral.bare, Elements.Alike] using h hw

theorem follows_parsed {x y : CompileM Node} {rest : Tokens} {le : rest.size ≤ ts.size}
    (h : Follows w x y (Node.Alike w)) :
    Follows w (x >>= fun n => pure (⟨n, rest, le⟩ : Parsed ts)) (y >>= fun n => pure (⟨n, rest, le⟩ : Parsed ts))
      (Parsed.Alike w) :=
  h.bind fun _ _ hn => .pure ⟨hn, rfl⟩

theorem follows_primary_expression {x y : CompileM Node} {rest : Tokens} {le : rest.size ≤ ts.size}
    (h : Follows w x y (Node.Alike w)) : Follows w (x >>= fun n => pure (⟨.expression n, n.span, rest, le⟩ : Primary ts))
      (y >>= fun n => pure (⟨.expression n, n.span, rest, le⟩ : Primary ts)) (Primary.Alike w) :=
  h.bind fun _ _ hn => .pure ⟨hn, hn.span, rfl⟩

theorem follows_negativeNumber? (ts : Tokens) (minus : Span) :
    Follows w (negativeNumber? ts minus) (negativeNumber? ts minus) (Option.Rel (Parsed.Alike w)) := by
  refine .read (static_takeKind? ts .number) fun found => ?_
  cases found with
  | none => exact .pure .none
  | some number =>
    refine .read (static_peek _) fun t => .ite Iff.rfl (fun _ => .pure .none) fun _ => ?_
    exact (follows_numberNode _ _).bind fun _ _ hn => .pure (.some ⟨hn, rfl⟩)

/-! ## Readers -/

mutual

theorem follows_expr (ts : Tokens) : ReadsAlike w (expr ts) := by
  unfold expr
  refine .read (static_plainAssignment? ts) fun found => ?_
  cases found with
  | some name =>
    obtain ⟨name, rest, lt⟩ := name
    refine .parsed (follows_expr rest) fun value value' rest' le hvalue => ?_
    refine .bind .state fun st st' _ => follows_parsed ?_
    exact follows_assignTo (.name _) rfl _ _ none hvalue
  | none =>
    refine .parsed (follows_unary ts) fun first first' rest le hfirst => ?_
    refine .read (static_takeAs? rest assign?) fun found => ?_
    cases found with
    | some sign =>
      obtain ⟨op, sign, rest', lt⟩ := sign
      refine .parsed (follows_expr rest') fun value value' rest'' le hvalue => ?_
      exact follows_parsed (follows_assignment hfirst op hvalue)
    | none =>
      exact .parsed (follows_operators hfirst rest) fun _ _ _ _ hn => .pure ⟨hn, rfl⟩
termination_by ts.size * 8 + 5

theorem follows_operators {first first' : Node} (h : first.Alike w first') (ts : Tokens) :
    Follows w (operators first ts) (operators first' ts) (Parsed.Alike w) := by
  unfold operators
  refine .bind (follows_operatorTail ts) ?_
  rintro ⟨items, rest, le⟩ ⟨items', _, le'⟩ ⟨hitems, rfl⟩
  refine .bind (follows_fold h hitems) fun cond cond' hcond => ?_
  exact .parsed (follows_conditional hcond rest) fun _ _ _ _ hn => .pure ⟨hn, rfl⟩
termination_by ts.size * 8 + 2

theorem follows_conditional {cond cond' : Node} (h : cond.Alike w cond') (ts : Tokens) :
    Follows w (conditional cond ts) (conditional cond' ts) (Parsed.Alike w) := by
  unfold conditional
  refine .read (static_takeKind? ts .question) fun found => ?_
  cases found with
  | none => exact .pure ⟨h, rfl⟩
  | some sign =>
    obtain ⟨sign, rest, lt⟩ := sign
    refine .parsed (follows_expr rest) fun yes yes' rest' le hyes => ?_
    refine .read (static_expect rest' .colon _) fun colon => ?_
    obtain ⟨colon, rest'', lt'⟩ := colon
    refine .parsed (follows_expr rest'') fun no no' rest₃ le hno => ?_
    refine follows_parsed (follows_node (by rw [h.span, hno.span]) (fun hw => ?_) _ _)
    simp [NodeKind.bare, h.bare hw, hyes.bare hw, hno.bare hw]
termination_by ts.size * 8 + 1

theorem follows_operatorTail (ts : Tokens) : Follows w (operatorTail ts) (operatorTail ts)
    fun a b => Items w a.items b.items ∧ a.rest = b.rest := by
  unfold operatorTail
  refine .read (static_takeAs? ts operator?) fun found => ?_
  cases found with
  | none => exact .pure ⟨.nil, rfl⟩
  | some sign =>
    obtain ⟨op, sign, rest, lt⟩ := sign
    refine .ite Iff.rfl (fun _ => .parsed (follows_typeOperand rest) ?_) fun _ => .parsed (follows_unary rest) ?_
    all_goals
      intro n n' rest' le hn
      refine .bind (follows_operatorTail rest') ?_
      rintro ⟨items, rest'', le⟩ ⟨items', _, le'⟩ ⟨hitems, rfl⟩
      exact .pure ⟨.cons ⟨rfl, hn⟩ hitems, rfl⟩
termination_by ts.size * 8 + 1

theorem follows_typeOperand (ts : Tokens) : ReadsAlike w (typeOperand ts) := by
  unfold typeOperand
  refine .read (static_takeName? ts) fun found => ?_
  cases found with
  | none => exact follows_unary ts
  | some name =>
    refine .next (steady_classOperand? _) fun found => ?_
    cases found with
    | none => exact follows_unary ts
    | some c => exact follows_parsed (follows_literal _ rfl)
termination_by ts.size * 8 + 5

theorem follows_unary (ts : Tokens) : ReadsAlike w (unary ts) := by
  unfold unary
  refine .read (static_takeAs? ts sign?) fun found => ?_
  cases found with
  | some found =>
    obtain ⟨sign, t, rest, lt⟩ := found
    cases sign with
    | not =>
      refine .parsed (follows_unary rest) fun n n' rest' le hn => follows_parsed ?_
      exact follows_node (by rw [hn.span]) (fun hw => by simp [NodeKind.bare, hn.bare hw]) _ _
    | minus =>
      refine .bind (follows_negativeNumber? rest t.span) fun found found' hfound => ?_
      cases hfound with
      | some h => exact .pure ⟨h.1, h.2⟩
      | none => exact .parsed (follows_unary rest) fun _ _ _ _ hn => follows_parsed (follows_negation t.span hn)
    | plus => exact .parsed (follows_unary rest) fun _ _ _ _ hn => .pure ⟨hn, rfl⟩
    | change delta =>
      refine .parsed (follows_operand rest) fun n n' rest' le hn => ?_
      exact follows_parsed (follows_increment hn delta true (by rw [hn.span]))
  | none =>
    refine .parsed (follows_operand ts) fun n n' rest le hn => ?_
    refine .read (static_takeAs? rest delta?) fun found => ?_
    cases found with
    | none => exact .pure ⟨hn, rfl⟩
    | some found => exact follows_parsed (follows_increment hn _ false (by rw [hn.span]))
termination_by ts.size * 8 + 4

theorem follows_operand (ts : Tokens) : ReadsAlike w (operand ts) := by
  unfold operand
  refine .bind (follows_primary ts) ?_
  rintro ⟨head, span, rest, le⟩ ⟨head', _, _, le'⟩ ⟨hhead, rfl, rfl⟩
  refine .bind (follows_steps rest) ?_
  rintro ⟨items, rest', le⟩ ⟨items', _, le'⟩ ⟨hitems, rfl⟩
  cases head with
  | step s =>
    cases head' with
    | step s' => exact follows_parsed (follows_pathNode _ (.cons ⟨hhead, rfl⟩ hitems))
    | expression n' => exact hhead.elim
  | expression n =>
    cases head' with
    | step s' => exact hhead.elim
    | expression n' =>
      have hn : n.Alike w n' := hhead
      have hempty : items.isEmpty = items'.isEmpty := by cases hitems <;> rfl
      refine .ite (by rw [hempty]) (fun _ => .pure ⟨hn, rfl⟩) fun _ => follows_parsed (follows_pathNode _ ?_)
      exact .cons ⟨⟨rfl, fun hw => by rw [Segment.bare, Segment.bare, hn.bare hw]⟩, rfl⟩ hitems
termination_by ts.size * 8 + 3

theorem follows_primary (ts : Tokens) : Follows w (primary ts) (primary ts) (Primary.Alike w) := by
  unfold primary
  refine .read (static_take? ts _) fun found => ?_
  cases found with
  | none =>
    refine .read (static_peek ts) fun t => .ite Iff.rfl (fun _ => ?_) fun _ => follows_unexpected t
    exact .next (steady_noteRoot _) fun _ => .pure ⟨.refl _, rfl, rfl⟩
  | some t =>
    obtain ⟨t, rest, lt⟩ := t
    dsimp only
    split
    · refine .bind (follows_wordPrimary t rest) ?_
      rintro ⟨head, span, rest', le⟩ ⟨head', _, _, le'⟩ ⟨hhead, rfl, rfl⟩
      exact .pure ⟨hhead, rfl, rfl⟩
    · exact follows_primary_expression (follows_numberNode t none)
    · exact .read ⟨_, rfl⟩ fun text => follows_primary_expression (follows_literal _ rfl)
    · refine .bind (follows_wholeExpr _ t.inner) fun n n' hn => follows_primary_expression ?_
      exact follows_node rfl (fun hw => by simp [NodeKind.bare, hn.bare hw]) _ _
    · exact follows_primary_expression (follows_collection _ _ t.inner)
    · exact follows_primary_expression (follows_collection _ _ t.inner)
    · exact follows_unexpected t
termination_by ts.size * 8 + 2

theorem follows_wordPrimary (t : Token) (ts : Tokens) :
    Follows w (wordPrimary t ts) (wordPrimary t ts) (Primary.Alike w) := by
  have word : ∀ v : Value, Follows w (do
      let n ← literal v t.span
      pure (⟨.expression n, n.span, ts, ts.size_le_refl⟩ : Primary ts)) _ (Primary.Alike w) :=
    fun v => follows_primary_expression (follows_literal v rfl)
  unfold wordPrimary
  refine .ite Iff.rfl (fun _ => word _) fun _ => .ite Iff.rfl (fun _ => word _) fun _ => .ite Iff.rfl (fun _ => word _) fun _ => ?_
  refine .ite Iff.rfl (fun _ => follows_primary_expression (follows_node rfl (fun _ => rfl) _ _)) fun _ => ?_
  refine .ite Iff.rfl (fun _ => ?_) fun _ => .ite Iff.rfl (fun _ => ?_) fun _ => ?_
  · exact .parsed (follows_creation t.span ts) fun _ _ _ _ hn => .pure ⟨hn, hn.span, rfl⟩
  · exact .parsed (follows_withExpr t.span ts) fun _ _ _ _ hn => .pure ⟨hn, hn.span, rfl⟩
  refine .ite Iff.rfl (fun _ => .pure ⟨.refl _, rfl, rfl⟩) fun _ => .ite Iff.rfl (fun _ => .fail) fun _ => ?_
  refine .read (static_takeKind? ts (.group .paren)) fun found => ?_
  cases found with
  | none => exact .next (steady_noteRoot _) fun _ => .pure ⟨.refl _, rfl, rfl⟩
  | some group =>
    obtain ⟨group, rest, lt⟩ := group
    refine .bind (follows_arguments group.inner) fun args args' hargs => ?_
    exact follows_primary_expression (follows_node rfl (fun hw => by simp [NodeKind.bare, hargs hw]) _ _)
termination_by ts.size * 8 + 2

theorem follows_steps (ts : Tokens) : Follows w (steps ts) (steps ts)
    fun a b => SameSteps w a.items b.items ∧ a.rest = b.rest := by
  unfold steps
  refine .read (static_take? ts isStep) fun found => ?_
  cases found with
  | none => exact .pure ⟨.nil, rfl⟩
  | some t =>
    obtain ⟨t, rest, lt⟩ := t
    dsimp only
    split
    · refine .bind (follows_wholeExpr _ t.inner) fun index index' hindex => .bind (follows_steps rest) ?_
      rintro ⟨items, rest', le⟩ ⟨items', _, le'⟩ ⟨hitems, rfl⟩
      exact .pure ⟨.cons ⟨.index hindex _, rfl⟩ hitems, rfl⟩
    · refine .read (static_expectName rest _) fun name => ?_
      obtain ⟨name, rest', le⟩ := name
      dsimp only
      refine .read (static_takeKind? rest' (.group .paren)) fun found => ?_
      cases found with
      | some group =>
        obtain ⟨group, rest'', lt'⟩ := group
        refine .bind (follows_arguments group.inner) fun args args' hargs => .bind (follows_steps rest'') ?_
        rintro ⟨items, rest₃, le⟩ ⟨items', _, le'⟩ ⟨hitems, rfl⟩
        exact .pure ⟨.cons ⟨⟨rfl, fun hw => by simp [Segment.bare, hargs hw]⟩, rfl⟩ hitems, rfl⟩
      | none =>
        refine .bind (follows_steps rest') ?_
        rintro ⟨items, rest₃, le⟩ ⟨items', _, le'⟩ ⟨hitems, rfl⟩
        exact .pure ⟨.cons ⟨.refl _, rfl⟩ hitems, rfl⟩
termination_by ts.size * 8 + 1

theorem follows_wholeExpr (start : Nat) (ts : Tokens) :
    Follows w (wholeExpr start ts) (wholeExpr start ts) (Node.Alike w) := by
  unfold wholeExpr
  refine .read (static_atEnd ts) fun _ => .ite Iff.rfl (fun _ => .fail) fun _ => ?_
  exact .parsed (follows_expr ts) fun _ _ rest _ hn => .read (static_expectEnd rest) fun _ => .pure hn
termination_by ts.size * 8 + 6

theorem follows_arguments (ts : Tokens) : Follows w (arguments ts) (arguments ts) (AllAlike w) := by
  unfold arguments
  refine .read (static_atEnd ts) fun _ => .ite Iff.rfl (fun _ => .pure fun _ => rfl) fun _ => ?_
  refine .parsed (follows_expr ts) fun n n' rest le hn => ?_
  refine .read (static_separator rest isComma) fun found => ?_
  cases found with
  | done => exact .pure (.cons hn fun _ => rfl)
  | more rest' lt => exact .bind (follows_arguments rest') fun _ _ hns => .pure (.cons hn hns)
termination_by ts.size * 8 + 6

theorem follows_collection (span : Span) (isArray : Bool) (ts : Tokens) :
    Follows w (collection span isArray ts) (collection span isArray ts) (Node.Alike w) := by
  have made : ∀ e e' : Elements, e.Alike w e' → Follows w (collectionNode span (e.literal isArray))
      (collectionNode span (e'.literal isArray)) (Node.Alike w) := fun e e' h =>
    follows_collectionNode span (h.literal isArray)
  unfold collection
  have colon : Steady w (if isArray = true then pure none else takeKind? ts .colon) :=
    .ite Iff.rfl (fun _ => .pure rfl) fun _ => (static_takeKind? ts .colon).steady
  refine .next colon fun found => ?_
  cases found with
  | some colon => exact .read (static_expectEnd _) fun _ => made (.entries []) (.entries []) fun _ => rfl
  | none =>
    refine .read (static_atEnd ts) fun _ => .ite Iff.rfl (fun _ => made (.items []) (.items []) fun _ => rfl) fun _ => ?_
    refine .parsed (follows_expr ts) fun first first' rest le hfirst => ?_
    refine .ite Iff.rfl (fun _ => ?_) fun _ => ?_
    · exact .bind (follows_moreItems rest) fun ns ns' hns => made (.items _) (.items _) (.cons hfirst hns)
    · have none : (Elements.entries []).Alike w (.entries []) := fun _ => rfl
      exact .bind (follows_elementsTail none hfirst rest) made
termination_by ts.size * 8 + 6

theorem follows_moreItems (ts : Tokens) : Follows w (moreItems ts) (moreItems ts) (AllAlike w) := by
  unfold moreItems
  refine .read (static_separator ts isComma) fun found => ?_
  cases found with
  | done => exact .pure fun _ => rfl
  | more rest lt => exact follows_arguments rest
termination_by ts.size * 8 + 1

theorem follows_elementsTail {es es' : List (Node × Node)} {first first' : Node}
    (hes : (Elements.entries es).Alike w (.entries es')) (h : first.Alike w first') (ts : Tokens) :
    Follows w (elementsTail es first ts) (elementsTail es' first' ts) (Elements.Alike w) := by
  unfold elementsTail
  refine .read (static_takeKind? ts .colon) fun found => ?_
  cases found with
  | none => exact .bind (follows_moreItems ts) fun _ _ hns => .pure (AllAlike.cons h hns)
  | some colon =>
    obtain ⟨colon, rest, lt⟩ := colon
    refine .parsed (follows_expr rest) fun value value' rest' le hvalue => ?_
    have hmore : (Elements.entries (es ++ [(first, value)])).Alike w (.entries (es' ++ [(first', value')])) := fun hw => by
      simpa [h.bare hw, hvalue.bare hw] using hes hw
    refine .read (static_separator rest' isComma) fun found => ?_
    cases found with
    | done => exact .pure hmore
    | more rest'' lt' =>
      refine .read (static_atEnd rest'') fun _ => .ite Iff.rfl (fun _ => .pure hmore) fun _ => ?_
      exact .parsed (follows_expr rest'') fun _ _ rest₃ _ hnext => follows_elementsTail hmore hnext rest₃
termination_by ts.size * 8 + 2

theorem follows_creation (keyword : Span) (ts : Tokens) : ReadsAlike w (creation keyword ts) := by
  unfold creation
  refine .read (static_expectName ts _) fun name => ?_
  obtain ⟨name, rest, le⟩ := name
  refine .read (static_lastName rest name _) fun last => ?_
  obtain ⟨last, rest', le'⟩ := last
  refine .read (static_expect rest' (.group .paren) _) fun group => ?_
  obtain ⟨group, rest'', lt⟩ := group
  refine .bind (follows_arguments group.inner) fun args args' hargs => ?_
  refine .bind ((checks_checkClass last).follows (checks_checkClass last)) fun _ _ _ => ?_
  refine .bind follows_newSite fun site site' hsite => follows_parsed (follows_node rfl (fun hw => ?_) _ _)
  simp [NodeKind.bare, Creation.bare, hargs hw, hsite hw]
termination_by ts.size * 8 + 1

theorem follows_withExpr (keyword : Span) (ts : Tokens) : ReadsAlike w (withExpr keyword ts) := by
  unfold withExpr
  refine .read (static_expect ts (.group .paren) _) fun head => ?_
  obtain ⟨head, rest, lt⟩ := head
  refine .bind (follows_wholeExpr _ head.inner) fun target target' htarget => ?_
  refine .read (static_expect rest (.group .brace) _) fun body => ?_
  obtain ⟨body, rest', lt'⟩ := body
  refine .bind (follows_withItems body.inner) fun items items' hitems => ?_
  exact follows_parsed (follows_node rfl (fun hw => by simp [NodeKind.bare, htarget.bare hw, hitems hw]) _ _)
termination_by ts.size * 8 + 1

theorem follows_withItems (ts : Tokens) : Follows w (withItems ts) (withItems ts) (AllAlike w) := by
  unfold withItems
  refine .read (static_atEnd ts) fun _ => .ite Iff.rfl (fun _ => .pure fun _ => rfl) fun _ => ?_
  refine .parsed (follows_withItem ts) fun n n' rest le hn => ?_
  refine .read (static_separator rest isCommaOrSemicolon) fun found => ?_
  cases found with
  | done => exact .pure (.cons hn fun _ => rfl)
  | more rest' lt => exact .bind (follows_withItems rest') fun _ _ hns => .pure (.cons hn hns)
termination_by ts.size * 8 + 6

theorem follows_withItem (ts : Tokens) : ReadsAlike w (withItem ts) := by
  unfold withItem
  refine .bind (.modify fun _ _ h => { h with quiet := congrArg (· + 1) h.quiet }) fun _ _ _ => ?_
  refine .parsed (follows_unary ts) fun first first' rest le hfirst => ?_
  refine .bind (.modify fun _ _ h => { h with quiet := congrArg (· - 1) h.quiet }) fun _ _ _ => ?_
  refine .read (static_takeAs? rest assign?) fun found => ?_
  cases found with
  | some sign =>
    obtain ⟨op, sign, rest', lt⟩ := sign
    refine .parsed (follows_expr rest') fun value value' rest'' le hvalue => ?_
    refine .bind (follows_rebase hfirst) fun target target' htarget => ?_
    exact follows_parsed (follows_assignment htarget op hvalue)
  | none =>
    exact .parsed (follows_operators hfirst rest) fun _ _ _ _ hn => .pure ⟨hn, rfl⟩
termination_by ts.size * 8 + 5

end

end PathScript.Compile
