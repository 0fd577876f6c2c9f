import PathScript.Proofs.Reading.Expr
import PathScript.Proofs.Signed

/-! # Constant folding

The tree in which operators on literals are evaluated is compared with the one
in which every operator is kept: both evaluate alike, in every frame and on
every machine. Literals are no references, so an operator on them neither reads
nor writes the heap, and what it gives at compile time it gives at every time.
One that fails is kept, and fails when it is evaluated. -/

namespace PathScript

/-! ## Operators on values that are no references -/

theorem Operator.constant_apply {lhs rhs : Value} (op : Operator) (hl : lhs.isPlain = true) (hr : rhs.isPlain = true) :
    ∃ r, op.apply lhs rhs = Run.ofExcept r := by
  refine Compile.apply_cases (P := fun x => ∃ r, x = Run.ofExcept r) op (fun r _ => ⟨r, rfl⟩) fun {α q k} hq hk => ?_
  obtain ⟨a, ha⟩ := hq hl hr
  have hask : Run.query q = (pure a : HeapM α) := by
    funext h
    rw [Run.query, ha]
    rfl
  rw [hask]
  exact hk a

/-! ## Literals -/

namespace Eval

theorem node_of_literal {n : Node} {v : Value} (h : n.literal? = some v) (fuel : Nat) (f : Frame) :
    node fuel f n = pure v := by
  have hk := Node.kind_of_literal? h
  cases fuel with
  | zero => simp only [node, hk]
  | succ fuel => simp only [node, step, hk]

end Eval

namespace Compile

open Precedence

variable {env : Env} {st st' : State} {k k' : Nat} {n p l l' r r' : Node}

/-- Two nodes evaluate alike in every frame, with enough fuel. -/
def Agree (k : Nat) (n p : Node) : Prop := ∀ fuel, k ≤ fuel → ∀ f, Eval.node fuel f n = Eval.node fuel f p

/-- The node of an operator that takes the values of both sides, with the operator kept. -/
def keptValuesNode (op : Operator) (lhs rhs : Node) (span : Span) : CompileM Node :=
  node span (op.resultType lhs.egress rhs.egress) (.binary op lhs rhs)

/-- The node of an operator, with operators on literals kept. -/
def keptNode (op : Operator) (lhs rhs : Node) : CompileM Node := do
  let span := lhs.span.cover rhs.span
  match op with
  | .and => node span .bool (.and lhs rhs)
  | .or => node span .bool (.or lhs rhs)
  | .regexMatch => regexNode lhs rhs
  | .eq | .ne =>
    if isEmptyWord rhs then node span .bool (.emptyTest lhs (op == .ne))
    else if isEmptyWord lhs then node span .bool (.emptyTest rhs (op == .ne))
    else keptValuesNode op lhs rhs span
  | _ => keptValuesNode op lhs rhs span

/-- The negation of an operand, kept also on a literal. -/
def keptNegation (minus : Span) (operand : Node) : CompileM Node :=
  node (minus.cover operand.span) (if operand.egress.isNumeric then operand.egress else .any) (.unary .neg operand)

/-- A literal that is no reference. -/
def LiteralPlain (n : Node) : Prop := ∀ v, n.literal? = some v → v.isPlain = true

/-- What became of a tree when its operators on literals were evaluated: a node at the same place that evaluates alike,
and a literal wherever the tree is one. -/
structure Reduct (k : Nat) (n p : Node) : Prop where
  span : n.info.span = p.info.span
  line : n.info.line = p.info.line
  isEmptyWord : isEmptyWord n = isEmptyWord p
  literal : ∀ v, p.literal? = some v → n.literal? = some v
  plain : LiteralPlain n
  agree : Agree k n p

theorem errorIn_congr {i i' : Info} (hs : i.span = i'.span) (hl : i.line = i'.line) (f : Frame) :
    f.errorIn i = f.errorIn i' := by
  funext fault
  rw [Frame.errorIn, Frame.errorIn, hs, hl]

namespace Reduct

theorem refl (h : LiteralPlain n) : Reduct k n n where
  span := rfl
  line := rfl
  isEmptyWord := rfl
  literal := fun _ hv => hv
  plain := h
  agree := fun _ _ _ => rfl

theorem mono (h : Reduct k n p) (hk : k ≤ k') : Reduct k' n p :=
  { h with agree := fun fuel hf => h.agree fuel (Nat.le_trans hk hf) }

theorem condition (h : Reduct k n p) {fuel : Nat} (hk : k ≤ fuel) (f : Frame) :
    Eval.condition (Eval.node fuel) f n = Eval.condition (Eval.node fuel) f p := by
  unfold Eval.condition
  rw [h.agree fuel hk f, errorIn_congr h.span h.line]

end Reduct

theorem reduct_node {kind kind' : NodeKind} {span span' : Span} {egress egress' : Ty} (hspan : span = span')
    (hplain : ∀ i, LiteralPlain ⟨i, kind⟩) (hkept : ∀ i, (⟨i, kind'⟩ : Node).literal? = none)
    (hword : ∀ i i', Compile.isEmptyWord ⟨i, kind⟩ = Compile.isEmptyWord ⟨i', kind'⟩)
    (hagree : ∀ i i' : Info, i.span = i'.span → i.line = i'.line → Agree k ⟨i, kind⟩ ⟨i', kind'⟩)
    (h : node span egress kind env st = .ok (n, st')) :
    ∃ p, node span' egress' kind' env st = .ok (p, st') ∧ Reduct k n p := by
  subst hspan
  cases h
  refine ⟨_, rfl, rfl, rfl, hword _ _, ?_, hplain _, hagree _ _ rfl rfl⟩
  intro v hv
  cases (hkept _).symm.trans hv

theorem agree_of_step
    (h : ∀ fuel, k ≤ fuel → ∀ f, Eval.step (Eval.node fuel) fuel f n = Eval.step (Eval.node fuel) fuel f p) :
    Agree (k + 1) n p := by
  intro fuel hk f
  obtain ⟨fuel, rfl⟩ : ∃ fuel', fuel = fuel' + 1 := ⟨fuel - 1, by omega⟩
  exact h fuel (by omega) f

theorem cover_congr (hl : Reduct k l l') (hr : Reduct k r r') : l.span.cover r.span = l'.span.cover r'.span :=
  congrArg₂ Span.cover hl.span hr.span

/-- The value of an operator on two literals is its value at every time. -/
theorem apply_of_constant? {op : Operator} {v : Value} (hl : LiteralPlain l) (hr : LiteralPlain r)
    (h : constant? op l r = some v) : ∃ a b, l.literal? = some a ∧ r.literal? = some b ∧ op.apply a b = pure v := by
  unfold constant? at h
  obtain ⟨a, ha, h⟩ := Option.bind_eq_some_iff.mp h
  obtain ⟨b, hb, h⟩ := Option.bind_eq_some_iff.mp h
  refine ⟨a, b, ha, hb, ?_⟩
  obtain ⟨result, hc⟩ := Operator.constant_apply op (hl a ha) (hr b hb)
  rw [hc] at h ⊢
  cases result with
  | ok w => cases h; rfl
  | error fault => cases h

theorem reduct_valuesNode {op : Operator} {span span' : Span} (hspan : span = span') (hl : Reduct k l l')
    (hr : Reduct k r r') (h : valuesNode op l r span env st = .ok (n, st')) :
    ∃ p, keptValuesNode op l' r' span' env st = .ok (p, st') ∧ Reduct (k + 1) n p := by
  unfold valuesNode at h
  cases hconst : constant? op l r with
  | some v =>
    rw [hconst] at h
    obtain ⟨a, b, ha, hb, happly⟩ := apply_of_constant? hl.plain hr.plain hconst
    refine reduct_node hspan ?_ (fun _ => rfl) (fun _ _ => rfl) ?_ h
    · rintro i w ⟨⟩
      exact isPlain_of_constant? hconst
    · intro i i' hs hline fuel hk f
      rw [Eval.node_of_literal rfl]
      obtain ⟨fuel, rfl⟩ : ∃ fuel', fuel = fuel' + 1 := ⟨fuel - 1, by omega⟩
      simp only [Eval.node, Eval.step, Eval.applyOperator]
      rw [← hl.agree fuel (by omega) f, ← hr.agree fuel (by omega) f, Eval.node_of_literal ha, Eval.node_of_literal hb]
      simp only [pure_bind, happly, EvalM.onHeap_pure]
  | none =>
    rw [hconst] at h
    refine reduct_node hspan (fun _ _ hv => by cases hv) (fun _ => rfl) (fun _ _ => rfl) ?_ h
    refine fun i i' hs hline => agree_of_step fun fuel hk f => ?_
    simp only [Eval.step, Eval.applyOperator]
    rw [hl.agree fuel hk f, hr.agree fuel hk f, errorIn_congr hs hline]

theorem reduct_emptyTest {span span' : Span} {negate : Bool} (hspan : span = span') (hl : Reduct k l l')
    (h : node span .bool (.emptyTest l negate) env st = .ok (n, st')) :
    ∃ p, node span' .bool (.emptyTest l' negate) env st = .ok (p, st') ∧ Reduct (k + 1) n p := by
  refine reduct_node hspan (fun _ _ hv => by cases hv) (fun _ => rfl) (fun _ _ => rfl) ?_ h
  refine fun i i' hs hline => agree_of_step fun fuel hk f => ?_
  simp only [Eval.step]
  rw [hl.agree fuel hk f]

/-- What is known of a pattern at compile time. -/
inductive Known (pattern : Node) : Option Regex → Prop where
  | compiled {text : String} {re : Regex} (hlit : pattern.literal? = some (.str text)) (hre : Regex.whole text = .ok re) :
    Known pattern (some re)
  | unknown (h : ∀ text, pattern.literal? ≠ some (.str text)) : Known pattern none

theorem regexNode_of_known {c : Option Regex} (h : Known r c) (subject : Node) :
    regexNode subject r = node (subject.span.cover r.span) .bool (.regexMatch subject r c) := by
  unfold regexNode
  cases h with
  | compiled hlit hre =>
    simp only [hlit, hre]
    rfl
  | unknown hno =>
    split
    next text htext => exact absurd htext (hno text)
    next => rfl

theorem known_of_regexNode (h : regexNode l r env st = .ok (n, st')) : ∃ c, Known r c := by
  by_cases hlit : ∃ text, r.literal? = some (.str text)
  · obtain ⟨text, hlit⟩ := hlit
    cases hre : Regex.whole text with
    | ok re => exact ⟨some re, .compiled hlit hre⟩
    | error e =>
      unfold regexNode at h
      simp only [hlit, hre] at h
      cases h
  · exact ⟨none, .unknown fun text htext => hlit ⟨text, htext⟩⟩

theorem matchPattern_of_known {re : Regex} (h : Known r (some re)) (fuel : Nat) (f : Frame) (info : Info) (text : String) :
    Eval.matchPattern (Eval.node fuel) f info r text = pure (.bool (re.isMatch text)) := by
  cases h with
  | compiled hlit hre =>
    unfold Eval.matchPattern
    rw [Eval.node_of_literal hlit, pure_bind]
    funext m
    simp only [Run.query, Value.text, Value.textWithin, Run.bind_apply, hre]

/-- It makes no difference whether a pattern was compiled with the program. -/
theorem regexMatch_of_known {c : Option Regex} (h : Known r c) (fuel : Nat) (f : Frame) (info : Info) (subject : Node) :
    Eval.regexMatch (Eval.node fuel) f info subject r c = Eval.regexMatch (Eval.node fuel) f info subject r none := by
  cases c with
  | none => rfl
  | some re =>
    unfold Eval.regexMatch
    refine bind_congr fun v => ?_
    split
    · rfl
    · refine bind_congr fun text => ?_
      cases f.mode with
      | accelerated => exact (matchPattern_of_known h fuel f info text).symm
      | interpreted => rfl

/-- A pattern that is known only after folding was compiled with the program; the tree with the operators kept compiles
the same text when it is evaluated. -/
theorem reduct_regexNode (hl : Reduct k l l') (hr : Reduct k r r') (h : regexNode l r env st = .ok (n, st')) :
    ∃ p, regexNode l' r' env st = .ok (p, st') ∧ Reduct (k + 1) n p := by
  obtain ⟨c, hc⟩ := known_of_regexNode h
  obtain ⟨c', hc'⟩ : ∃ c', Known r' c' := by
    by_cases hlit : ∃ text, r'.literal? = some (.str text)
    · obtain ⟨text, hlit⟩ := hlit
      cases hc with
      | compiled hlit' hre =>
        cases hlit'.symm.trans (hr.literal _ hlit)
        exact ⟨_, .compiled hlit hre⟩
      | unknown hno => exact absurd (hr.literal _ hlit) (hno text)
    · exact ⟨none, .unknown fun text htext => hlit ⟨text, htext⟩⟩
  rw [regexNode_of_known hc] at h
  rw [regexNode_of_known hc']
  refine reduct_node (cover_congr hl hr) (fun _ _ hv => by cases hv) (fun _ => rfl) (fun _ _ => rfl) ?_ h
  refine fun i i' hs hline => agree_of_step fun fuel hk f => ?_
  simp only [Eval.step]
  rw [regexMatch_of_known hc, regexMatch_of_known hc']
  unfold Eval.regexMatch Eval.matchPattern
  rw [hl.agree fuel hk f, hr.agree fuel hk f, errorIn_congr hs hline]

theorem reduct_binaryNode {op : Operator} (hl : Reduct k l l') (hr : Reduct k r r')
    (h : binaryNode op l r env st = .ok (n, st')) :
    ∃ p, keptNode op l' r' env st = .ok (p, st') ∧ Reduct (k + 1) n p := by
  have hspan := cover_congr hl hr
  cases op with
  | and | or =>
    refine reduct_node hspan (fun _ _ hv => by cases hv) (fun _ => rfl) (fun _ _ => rfl) ?_ h
    refine fun i i' hs hline => agree_of_step fun fuel hk f => ?_
    simp only [Eval.step]
    rw [hl.condition hk f, hr.condition hk f]
  | regexMatch => exact reduct_regexNode hl hr h
  | eq | ne =>
    simp only [binaryNode] at h
    simp only [keptNode, ← hl.isEmptyWord, ← hr.isEmptyWord]
    split at h
    next hc => rw [if_pos hc]; exact reduct_emptyTest hspan hl h
    next hc =>
      rw [if_neg hc]
      split at h
      next hc => rw [if_pos hc]; exact reduct_emptyTest hspan hr h
      next hc => rw [if_neg hc]; exact reduct_valuesNode hspan hl hr h
  | _ => exact reduct_valuesNode hspan hl hr h

theorem central_keptNode {op : Operator} (h : op.isLogical = true) (lhs rhs : Node) : Central (keptNode op lhs rhs) := by
  cases op with
  | and | or => exact central_node _ _ _
  | _ => cases h

theorem reduct_build {g : Grouping Node} (hg : g.Operands LiteralPlain) (h : g.build binaryNode env st = .ok (n, st')) :
    ∃ p, g.build keptNode env st = .ok (p, st') ∧ Reduct g.tail.length n p := by
  induction g generalizing n st st' with
  | leaf a =>
    cases h
    exact ⟨_, rfl, .refl hg⟩
  | join op lhs rhs ihl ihr =>
    obtain ⟨l, st₁, hl, h⟩ := bind_eq_ok.mp h
    obtain ⟨r, st₂, hr, h⟩ := bind_eq_ok.mp h
    obtain ⟨l', hl', hreductl⟩ := ihl hg.1 hl
    obtain ⟨r', hr', hreductr⟩ := ihr hg.2 hr
    -- One more operator than there are in both sides.
    have hlen : (Grouping.join op lhs rhs).tail.length = lhs.tail.length + rhs.tail.length + 1 := by
      simp only [Grouping.tail, List.length_append, List.length_cons]
      omega
    obtain ⟨p, hp, hreduct⟩ := reduct_binaryNode (hreductl.mono (Nat.le_add_right _ _))
      (hreductr.mono (Nat.le_add_left _ _)) h
    rw [hlen]
    exact ⟨p, bind_eq_ok.mpr ⟨l', st₁, hl', bind_eq_ok.mpr ⟨r', st₂, hr', hp⟩⟩, hreduct⟩

theorem reduct_fold {first : Node} {tail : List (Operator × Node)} (hfirst : LiteralPlain first)
    (htail : ∀ item ∈ tail, LiteralPlain item.2) (h : fold binaryNode first tail env st = .ok (n, st')) :
    ∃ p, fold keptNode first tail env st = .ok (p, st') ∧ Reduct tail.length n p := by
  obtain ⟨hr, hf, ht⟩ := Grouping.ofSequence_spec first tail
  have hplain : (Grouping.ofSequence first tail).Operands LiteralPlain :=
    Grouping.operands_of_sequence (by rwa [hf]) (by rwa [ht])
  have hfold := fold_eq_build binaryNode (fun _ h => central_binaryNode h) hr
  have hkept := fold_eq_build keptNode (fun _ h => central_keptNode h) hr
  rw [hf, ht] at hfold hkept
  rw [hfold] at h
  rw [hkept]
  have hbuild := reduct_build hplain h
  rwa [ht] at hbuild

/-! ## Operators that fail, and signs -/

/-- An operator that takes the values of both sides. -/
def takesValues : Operator → Bool
  | .and | .or | .regexMatch => false
  | _ => true

theorem binaryNode_of_literals {op : Operator} {a b : Value} (hop : takesValues op = true) (ha : l.literal? = some a)
    (hb : r.literal? = some b) : binaryNode op l r = valuesNode op l r (l.span.cover r.span) := by
  have hl : isEmptyWord l = false := by rw [isEmptyWord, Node.kind_of_literal? ha]
  have hr : isEmptyWord r = false := by rw [isEmptyWord, Node.kind_of_literal? hb]
  unfold binaryNode
  cases op with
  | and | or | regexMatch => cases hop
  | eq | ne => simp only [hl, hr, Bool.false_eq_true, if_false]
  | _ => rfl

/-- An operator that fails on literals is kept, and fails at its place whenever it is evaluated. -/
theorem fails_of_literals {op : Operator} {a b : Value} {fault : Fault} {heap : Heap} (hop : takesValues op = true)
    (ha : l.literal? = some a) (hb : r.literal? = some b) (hl : LiteralPlain l) (hr : LiteralPlain r)
    (hfail : op.apply a b .empty = .error fault heap) (h : binaryNode op l r env st = .ok (n, st')) :
    ∀ fuel f m, Eval.node (fuel + 1) f n m = .error (f.errorIn n.info fault) m := by
  have happly : op.apply a b = Run.fail fault := by
    obtain ⟨result, hc⟩ := Operator.constant_apply op (hl a ha) (hr b hb)
    rw [hc] at hfail ⊢
    cases result with
    | ok v => cases hfail
    | error e => cases hfail; rfl
  have hconst : constant? op l r = none := by
    simp only [constant?, ha, hb, hfail, Option.bind_eq_bind, Option.bind_some]
  rw [binaryNode_of_literals hop ha hb, valuesNode, hconst] at h
  cases h
  intro fuel f m
  simp only [Eval.node, Eval.step, Eval.applyOperator]
  rw [Eval.node_of_literal ha, Eval.node_of_literal hb]
  simp only [pure_bind, happly]
  cases m
  rfl

theorem apply_of_negated? {v w : Value} (h : negated? v = some w) : UnaryOp.neg.apply v = .ok w := by
  cases v with
  | int n =>
    obtain ⟨m, hm, rfl⟩ := Option.map_eq_some_iff.mp h
    exact congrArg Operator.checked hm
  | float x => cases h; rfl
  | _ => cases h

/-- A literal agrees with the negation of another, if it is its negative. -/
theorem agree_negation {operand : Node} {v w : Value} {i : Info} (hlit : operand.literal? = some v)
    (h : UnaryOp.neg.apply v = .ok w) (hn : n.literal? = some w) : Agree 1 n ⟨i, .unary .neg operand⟩ := by
  intro fuel hk f
  obtain ⟨fuel, rfl⟩ : ∃ fuel', fuel = fuel' + 1 := ⟨fuel - 1, by omega⟩
  rw [Eval.node_of_literal hn]
  simp only [Eval.node, Eval.step]
  rw [Eval.node_of_literal hlit, pure_bind, h]
  exact (EvalM.onHeap_pure _ w).symm

theorem negation_agrees {minus : Span} {operand : Node} (h : negation minus operand env st = .ok (n, st')) :
    ∃ p, keptNegation minus operand env st = .ok (p, st') ∧ Agree 1 n p := by
  unfold negation at h
  cases hneg : operand.literal?.bind negated? with
  | some v =>
    obtain ⟨w, hw, hv⟩ := Option.bind_eq_some_iff.mp hneg
    simp only [hneg] at h
    cases h
    exact ⟨_, rfl, agree_negation hw (apply_of_negated? hv) rfl⟩
  | none =>
    simp only [hneg] at h
    exact ⟨n, h, fun _ _ _ => rfl⟩

theorem numberNode_agrees {c c' : Cursor} {t : Token} {minus : Span} {operand : Node} (hnext : c.next = .ok (t.lexeme, c'))
    (hkind : t.kind = .number) (h : numberNode t none env st = .ok (operand, st')) :
    ∃ n p, numberNode t (some minus) env st = .ok (n, st') ∧ keptNegation minus operand env st' = .ok (p, st') ∧
      Agree 1 n p := by
  unfold numberNode at h ⊢
  cases hw : Literal.number t.lexeme false with
  | error e =>
    obtain ⟨w, st₁, hv, -⟩ := bind_eq_ok.mp h
    simp only [Option.isSome_none, hw] at hv
    cases hv
  | ok w =>
    obtain ⟨v, hv, hneg⟩ := Literal.number_minus (Cursor.unmarked_of_next hnext hkind) hw
    simp only [Option.isSome_none, Option.isSome_some, hw, hv] at h ⊢
    cases h
    exact ⟨_, _, rfl, rfl, agree_negation rfl hneg rfl⟩

/-! ## Folding -/

theorem literalPlain_of_expr (h : env.Expr n) : LiteralPlain n := by
  intro v hv
  have hkind := Node.kind_of_literal? hv
  cases h with
  | literal _ plain => cases hkind; exact plain
  | _ => cases hkind

/-- Folding keeps the meaning. A sequence of operands whose literals are no references is folded to a node that evaluates
like the one with all operators kept, and stands at the same place; an operator that fails on its literals still fails.
The negative of an operand, and a number behind a minus sign, evaluate like the negation that is kept. The operands
that are read have no references for literals. -/
theorem folding_keeps_meaning (env : Env) (st st' : State) :
    (∀ first tail n, LiteralPlain first → (∀ item ∈ tail, LiteralPlain item.2) →
      fold binaryNode first tail env st = .ok (n, st') →
      ∃ p, fold keptNode first tail env st = .ok (p, st') ∧ n.span = p.span ∧ Agree tail.length n p) ∧
    (∀ op l r n a b fault heap, takesValues op = true → l.literal? = some a → r.literal? = some b → LiteralPlain l →
      LiteralPlain r → op.apply a b .empty = .error fault heap → binaryNode op l r env st = .ok (n, st') →
      ∀ fuel f m, Eval.node (fuel + 1) f n m = .error (f.errorIn n.info fault) m) ∧
    (∀ minus operand n, negation minus operand env st = .ok (n, st') →
      ∃ p, keptNegation minus operand env st = .ok (p, st') ∧ Agree 1 n p) ∧
    (∀ c c' t minus operand, Cursor.next c = .ok (t.lexeme, c') → t.kind = .number →
      numberNode t none env st = .ok (operand, st') →
      ∃ n p, numberNode t (some minus) env st = .ok (n, st') ∧ keptNegation minus operand env st' = .ok (p, st') ∧
        Agree 1 n p) ∧ (∀ ts, Tokens.Lexed env.source ts → ts.Clean →
      (∀ a, unary ts env st = .ok (a, st') → LiteralPlain a.node) ∧
      (∀ a, operatorTail ts env st = .ok (a, st') → ∀ item ∈ a.items, LiteralPlain item.2)) := by
  refine ⟨?_, ?_, fun _ _ _ => negation_agrees, fun _ _ _ _ _ => numberNode_agrees, ?_⟩
  · intro first tail n hfirst htail h
    obtain ⟨p, hp, hreduct⟩ := reduct_fold hfirst htail h
    exact ⟨p, hp, hreduct.span, hreduct.agree⟩
  · intro op l r n a b fault heap hop ha hb hl hr
    exact fails_of_literals hop ha hb hl hr
  · intro ts hlexed hclean
    obtain ⟨c, hc, hts⟩ := id hlexed
    have hstream : Tokens.Stream False env.source c.pos (c.pos + Text.byteLength c.rest) ts :=
      ⟨Nat.le_add_right _ _, hts ▸ c.placed_tokens hc, hts ▸ c.upTo_tokens, hlexed, False.elim⟩
    constructor
    · intro a ha
      exact literalPlain_of_expr ((builds_unary ts hstream _ _ [] (.nil (.refl st))).of_ok ha).2.form
    · intro a ha item hitem
      obtain ⟨-, stop, -, -, hitems⟩ := ((builds_operatorTail ts hstream _ _ [] (.nil (.refl st))).of_ok ha).2
      exact literalPlain_of_expr (hitems item hitem).form

/-- In `6 / 0 + 1 * 2` the product is evaluated at compile time, and the division, which fails, is kept. -/
theorem folding_keeps_meaning_division :
    let env : Env := ⟨[], .standard, .standard, .standard⟩
    let st : State := ⟨.empty, [], [], 0, 0, 0, []⟩
    let number (v : Int64) (start : Nat) : Node := ⟨⟨⟨start, start + 1⟩, .int, none⟩, .literal (.int v)⟩
    let tail := [(Operator.div, number 0 4), (.add, number 1 8), (.mul, number 2 12)]
    let quotient : Node := ⟨⟨⟨0, 5⟩, .int, none⟩, .binary .div (number 6 0) (number 0 4)⟩
    let product : Node := ⟨⟨⟨8, 13⟩, .int, none⟩, .literal (.int 2)⟩
    let sum : Node := ⟨⟨⟨0, 13⟩, .int, none⟩, .binary .add quotient product⟩
    fold binaryNode (number 6 0) tail env st = .ok (sum, st) ∧
      (∃ p, fold keptNode (number 6 0) tail env st = .ok (p, st) ∧ sum.span = p.span ∧ Agree 3 sum p) ∧
      (∀ f m, Eval.node 1 f quotient m = .error (f.errorIn quotient.info .divisionByZero) m) := by
  intro env st number tail quotient product sum
  have hplain : ∀ v start, LiteralPlain (number v start) := by
    rintro v start w ⟨⟩
    rfl
  have htail : ∀ item ∈ tail, LiteralPlain item.2 := by
    intro item hitem
    simp only [tail, List.mem_cons, List.not_mem_nil, or_false] at hitem
    obtain rfl | rfl | rfl := hitem <;> exact hplain _ _
  have hfold : fold binaryNode (number 6 0) tail env st = .ok (sum, st) := rfl
  have hdiv : binaryNode .div (number 6 0) (number 0 4) env st = .ok (quotient, st) := rfl
  obtain ⟨hmeaning, hfails, -⟩ := folding_keeps_meaning env st st
  exact ⟨hfold, hmeaning _ _ _ (hplain _ _) htail hfold,
    hfails .div _ _ _ _ _ .divisionByZero .empty rfl rfl rfl (hplain _ _) (hplain _ _) rfl hdiv 0⟩

end Compile

end PathScript
