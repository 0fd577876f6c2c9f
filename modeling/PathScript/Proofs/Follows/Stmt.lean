import PathScript.Proofs.Follows.Expr

/-! # Statements side by side

Statements add blocks and functions to what is kept between steps. The types of
parameters and loop variables are written ones, if they are there at all, so that
the blocks of a function and of a loop start out with the same names. -/

namespace PathScript.Compile

variable {n n' : Node} {ts : Tokens}

/-! ## Parts that read no statement -/

def Part.Alike (a b : Part ts (Option Node)) : Prop :=
  a.value.map Node.bare = b.value.map Node.bare ∧ a.rest = b.rest

def Statement.Alike (a b : Statement ts) : Prop := a.toParsed.Alike True b.toParsed ∧ a.closed = b.closed

/-- Chains of branches that are alike, with the same rest. -/
structure Chain.Alike (a b : Chain ts) : Prop where
  branches : a.branches.map (Prod.map Node.bare Node.bare) = b.branches.map (Prod.map Node.bare Node.bare)
  otherwise : a.otherwise.map Node.bare = b.otherwise.map Node.bare
  last : a.last = b.last
  rest : a.rest = b.rest

theorem follows_condition (ts : Tokens) : ReadsAlike True (condition ts) :=
  .read (static_expect ts _ _) fun _ => follows_parsed (follows_wholeExpr _ _)

theorem steady_eachHead? (ts : Tokens) : Steady True (eachHead? ts) := by
  refine .read (static_takeName? ts) fun found => ?_
  cases found with
  | none => exact .pure rfl
  | some first =>
    refine .read (static_takeKind? _ .colon) fun found => ?_
    cases found with
    | some colon => exact .pure rfl
    | none =>
      refine .read (static_takeName? _) fun found => ?_
      cases found with
      | none => exact .pure rfl
      | some item =>
        refine .read (static_takeKind? _ .colon) fun found => ?_
        cases found with
        | none => exact .pure rfl
        | some colon => exact .next (steady_typeOfToken _) fun _ => .pure rfl

theorem steady_parameter (ts : Tokens) : Steady True (parameter ts) := by
  refine .read (static_expectName ts _) fun first => .read (static_takeName? _) fun found => ?_
  cases found with
  | some name => exact .next (steady_typeOfToken _) fun _ => .pure rfl
  | none => exact .pure rfl

theorem steady_parameters (params : List Param) (ts : Tokens) : Steady True (parameters params ts) := by
  unfold parameters
  refine .read (static_atEnd ts) fun _ => .ite Iff.rfl (fun _ => .pure rfl) fun _ => ?_
  refine .next (steady_parameter ts) fun found => ?_
  obtain ⟨⟨name, ty⟩, rest, le⟩ := found
  refine .next (steady_bindable name) fun param => .ite Iff.rfl (fun _ => .fail) fun _ => ?_
  refine .read (static_separator rest isComma) fun found => ?_
  cases found with
  | done => exact .pure rfl
  | more rest' lt => exact steady_parameters _ rest'
termination_by ts.size

theorem steady_importName (ts : Tokens) : Steady True (importName ts) := by
  refine .read (static_expectName ts _) fun first => .ite Iff.rfl (fun _ => ?_) fun _ => .pure rfl
  refine .read (static_takeName? _) fun found => ?_
  cases found with
  | some name => exact .pure rfl
  | none => exact .pure rfl

theorem steady_importValue (name : Token) : Steady True (importValue name) := by
  refine .bind .ask fun env env' henv => ?_
  rw [henv.imports, henv.library]
  split
  · exact .pure rfl
  · exact .fail

theorem follows_importStmt (keyword : Span) (ts : Tokens) : ReadsAlike True (importStmt keyword ts) := by
  refine .next (steady_importName ts) fun first => .read (static_lastName _ _ _) fun last => ?_
  refine .next (steady_importValue _) fun value => ?_
  refine .bind (.modify fun _ _ h => { h with imports := by rw [h.imports] }) fun _ _ _ => ?_
  exact follows_parsed (follows_node rfl (fun _ => rfl) _ _)

theorem follows_assertStmt (keyword : Span) (ts : Tokens) : ReadsAlike True (assertStmt keyword ts) := by
  refine .parsed (follows_expr ts) fun n n' rest le hn => ?_
  dsimp only
  rw [hn.span]
  refine .next (steady_sourceText _) fun text => follows_parsed (follows_node rfl (fun _ => ?_) _ _)
  simp [NodeKind.bare, hn.eq]

theorem follows_returnStmt (keyword : Span) (ts : Tokens) : ReadsAlike True (returnStmt keyword ts) := by
  refine .read (static_peek ts) fun next => .ite Iff.rfl (fun _ => ?_) fun _ => .bind (follows_expr ts) ?_
  · exact follows_parsed (follows_node rfl (fun _ => rfl) _ _)
  rintro ⟨n, rest, le⟩ ⟨n', _, le'⟩ ⟨hn, rfl⟩
  refine follows_parsed (follows_node ?_ (fun _ => ?_) _ _)
  · rw [hn.span]
  · simp [NodeKind.bare, hn.eq]

theorem steady_declHead? (ts : Tokens) : Steady True (declHead? ts) := by
  refine .read (static_takeName? ts) fun found => ?_
  cases found with
  | none => exact .pure rfl
  | some tyToken =>
    refine .next (steady_typeNamed _) fun ty => ?_
    cases ty with
    | none => exact .pure rfl
    | some ty =>
      refine .read (static_takeName? _) fun found => ?_
      cases found with
      | none => exact .pure rfl
      | some name =>
        refine .ite Iff.rfl (fun _ => .pure rfl) fun _ => .read (static_takeKind? _ _) fun found => ?_
        cases found with
        | some sign => exact .pure rfl
        | none => exact .read (static_peek _) fun next => .ite Iff.rfl (fun _ => .pure rfl) fun _ => .pure rfl

theorem follows_optionalExpr (isThere : Bool) (ts : Tokens) :
    Follows True (optionalExpr isThere ts) (optionalExpr isThere ts) Part.Alike := by
  refine .ite Iff.rfl (fun _ => .bind (follows_expr ts) ?_) fun _ => .pure ⟨rfl, rfl⟩
  rintro ⟨n, rest, le⟩ ⟨n', _, le'⟩ ⟨hn, rfl⟩
  exact .pure ⟨congrArg some hn.eq, rfl⟩

theorem span_getD_eq {v v' : Option Node} (h : v.map Node.bare = v'.map Node.bare) (span : Span) :
    (v.map Node.span).getD span = (v'.map Node.span).getD span := by
  have hspan := congrArg (Option.map Node.span) h
  simp only [Option.map_map, Function.comp_def, Node.span_bare] at hspan
  rw [hspan]

theorem follows_declaration? (ts : Tokens) :
    Follows True (declaration? ts) (declaration? ts) (Option.Rel (Parsed.Alike True)) := by
  refine .next (steady_declHead? ts) fun found => ?_
  cases found with
  | none => exact .pure .none
  | some head =>
    obtain ⟨ty, tyToken, nameToken, hasValue, rest, le⟩ := head
    refine .next (steady_bindable nameToken) fun name => .bind (follows_optionalExpr hasValue rest) ?_
    rintro ⟨value, rest', le⟩ ⟨value', _, le'⟩ ⟨hvalue, rfl⟩
    refine .bind (follows_declare (by rfl) _ _) fun _ _ _ => .next (steady_allocate name) fun register => ?_
    refine .bind (follows_node ?_ (fun _ => ?_) _ _) fun n n' hn => .pure (.some ⟨hn, rfl⟩)
    · exact congrArg _ (span_getD_eq hvalue _)
    · have hvalue : value.map Node.bare = value'.map Node.bare := hvalue
      simp [NodeKind.bare, hvalue]

theorem isWith_eq (h : n.Alike True n') : isWith n = isWith n' := by
  have bare : ∀ n : Node, isWith n.bare = isWith n := by
    intro n
    unfold isWith
    rw [Node.kind_bare]
    cases n.kind <;> rfl
  rw [← bare n, h.eq, bare n']

theorem follows_plainStmt (ts : Tokens) : Follows True (plainStmt ts) (plainStmt ts) Statement.Alike := by
  refine .bind (follows_declaration? ts) fun found found' hfound => ?_
  cases hfound with
  | some h => exact .pure ⟨h, rfl⟩
  | none =>
    refine .parsed (follows_expr ts) fun n n' rest le hn => ?_
    exact .pure ⟨⟨hn, rfl⟩, by simp only [isWith_eq hn]⟩

theorem follows_forCondition (ts : Tokens) : Follows True (forCondition ts) (forCondition ts) Part.Alike :=
  .read (static_peek ts) fun _ => follows_optionalExpr _ ts

theorem follows_forStep (ts : Tokens) :
    Follows True (forStep ts) (forStep ts) fun v v' => v.map Node.bare = v'.map Node.bare := by
  refine .read (static_atEnd ts) fun _ => .ite Iff.rfl (fun _ => .pure rfl) fun _ => ?_
  refine .parsed (follows_expr ts) fun n n' rest le hn => ?_
  exact .read (static_expectEnd rest) fun _ => .pure (congrArg some hn.eq)

theorem steady_tailLoop (word : Token) : Steady True (tailLoop word) :=
  .ite Iff.rfl (fun _ => .pure rfl) fun _ => .ite Iff.rfl (fun _ => .pure rfl) fun _ => follows_unexpected word

theorem follows_completeFunction (name : String) (params : List Param) (span : Span) (h : n.Alike True n') :
    Follows True (completeFunction name params n span) (completeFunction name params n' span)
      fun f f' => f.bare = f'.bare := by
  intro env env' _ st st' hst f s heq
  cases heq
  have hf : Function.bare ⟨st.nextFunction, name, params, n, (st.layouts.head?.getD ⟨[], []⟩).registers,
        (st.layouts.head?.getD ⟨[], []⟩).freeVars, span⟩ =
      Function.bare ⟨st'.nextFunction, name, params, n', (st'.layouts.head?.getD ⟨[], []⟩).registers,
        (st'.layouts.head?.getD ⟨[], []⟩).freeVars, span⟩ := by
    rw [Function.bare, Function.bare, h.eq, hst.layouts, hst.nextFunction trivial]
  refine ⟨_, _, rfl, hf, { hst with layouts := ?_, nextFunction := ?_, functions := ?_ }⟩
  · exact congrArg List.tail hst.layouts
  · exact fun hw => congrArg (· + 1) (hst.nextFunction hw)
  · exact fun hw => by rw [List.map_cons, List.map_cons, hf, hst.functions hw]

/-! ## Statements -/

mutual

theorem follows_statements (ts : Tokens) : Follows True (statements ts) (statements ts) (AllAlike True) := by
  unfold statements
  refine .read (static_takeKind? ts .semicolon) fun found => ?_
  cases found with
  | some sign =>
    obtain ⟨sign, rest, lt⟩ := sign
    exact follows_statements rest
  | none =>
    refine .read (static_atEnd ts) fun _ => .ite Iff.rfl (fun _ => .pure fun _ => rfl) fun _ => ?_
    refine .bind (follows_statement ts) ?_
    rintro ⟨⟨n, rest, le⟩, closed, lt⟩ ⟨⟨n', _, le'⟩, _, lt'⟩ ⟨⟨hn, rfl⟩, rfl⟩
    refine .read (static_takeKind? rest .semicolon) fun found => ?_
    cases found with
    | some sign =>
      obtain ⟨sign, rest', lt⟩ := sign
      have hle : rest.size ≤ ts.size := le
      exact .bind (follows_statements rest') fun _ _ hns => .pure (.cons hn hns)
    | none =>
      refine .read (static_peek rest) fun next => .ite Iff.rfl (fun _ => .pure (.cons hn fun _ => rfl)) fun _ => ?_
      cases closed with
      | false => exact .fail
      | true =>
        have hlt : rest.size < ts.size := lt rfl
        exact .bind (follows_statements rest) fun _ _ hns => .pure (.cons hn hns)
termination_by ts.size * 8 + 6

theorem follows_statement (ts : Tokens) : Follows True (statement ts) (statement ts) Statement.Alike := by
  unfold statement
  refine .read (static_take? ts _) fun found => ?_
  cases found with
  | none => exact follows_plainStmt ts
  | some t =>
    obtain ⟨t, rest, lt⟩ := t
    refine .ite Iff.rfl (fun _ => .bind (follows_ifStmt t.span rest) fun _ _ h => .pure ⟨h, rfl⟩) fun _ => ?_
    refine .ite Iff.rfl (fun _ => .bind (follows_forStmt t.span rest) fun _ _ h => .pure ⟨h, rfl⟩) fun _ => ?_
    refine .ite Iff.rfl (fun _ => .bind (follows_whileStmt t.span _ rest) fun _ _ h => .pure ⟨h, rfl⟩) fun _ => ?_
    refine .ite Iff.rfl (fun _ => .bind (follows_whileStmt t.span _ rest) fun _ _ h => .pure ⟨h, rfl⟩) fun _ => ?_
    refine .ite Iff.rfl (fun _ => .bind (follows_doStmt t.span rest) fun _ _ h => .pure ⟨h, rfl⟩) fun _ => ?_
    refine .ite Iff.rfl (fun _ => .bind (follows_functionStmt t.span rest) fun _ _ h => .pure ⟨h, rfl⟩) fun _ => ?_
    refine .ite Iff.rfl (fun _ => .bind (follows_returnStmt t.span rest) fun _ _ h => .pure ⟨h, rfl⟩) fun _ => ?_
    refine .ite Iff.rfl (fun _ => .bind (follows_importStmt t.span rest) fun _ _ h => .pure ⟨h, rfl⟩) fun _ => ?_
    refine .ite Iff.rfl (fun _ => .bind (follows_assertStmt t.span rest) fun _ _ h => .pure ⟨h, rfl⟩) fun _ => ?_
    exact follows_plainStmt ts
termination_by ts.size * 8 + 5

theorem follows_body (ts : Tokens) : ReadsAlike True (body ts) := by
  unfold body
  refine .read (static_takeKind? ts (.group .brace)) fun found => ?_
  cases found with
  | some group =>
    obtain ⟨group, rest, lt⟩ := group
    exact follows_parsed (follows_block group.span true group.inner)
  | none =>
    refine .bind (follows_inBlock (.refl .empty) (follows_statement ts)) ?_
    rintro ⟨⟨n, rest, le⟩, closed, lt⟩ ⟨⟨n', _, le'⟩, _, lt'⟩ ⟨⟨hn, rfl⟩, -⟩
    refine follows_parsed (follows_node hn.span (fun _ => ?_) _ _)
    simpa [NodeKind.bare] using hn.eq
termination_by ts.size * 8 + 6

theorem follows_block (span : Span) (ownScope : Bool) (ts : Tokens) :
    Follows True (block span ownScope ts) (block span ownScope ts) (Node.Alike True) := by
  unfold block
  refine .bind (follows_inBlock (.refl .empty) (follows_statements ts)) fun stmts stmts' h => ?_
  exact follows_node rfl (fun _ => by simp [NodeKind.bare, h]) _ _
termination_by ts.size * 8 + 7

theorem follows_ifStmt (keyword : Span) (ts : Tokens) : ReadsAlike True (ifStmt keyword ts) := by
  unfold ifStmt
  refine .parsed (follows_condition ts) fun cond cond' rest le hcond => ?_
  have hle : rest.size ≤ ts.size := le
  refine .parsed (follows_body rest) fun first first' rest' le hfirst => ?_
  have hle' : rest'.size ≤ rest.size := le
  dsimp only
  rw [hfirst.span]
  refine .bind (follows_elseTail first'.span rest') ?_
  rintro ⟨more, otherwise, last, rest'', le⟩ ⟨more', otherwise', _, _, le'⟩ ⟨hmore, hotherwise, rfl, rfl⟩
  refine follows_parsed (follows_node rfl (fun _ => ?_) _ _)
  dsimp only at hmore hotherwise
  simp [NodeKind.bare, hcond.eq, hfirst.eq, hmore, hotherwise]
termination_by ts.size * 8 + 7

theorem follows_elseTail (last : Span) (ts : Tokens) :
    Follows True (elseTail last ts) (elseTail last ts) Chain.Alike := by
  unfold elseTail
  refine .read (static_takeWord? ts "else") fun found => ?_
  cases found with
  | none => exact .pure ⟨rfl, rfl, rfl, rfl⟩
  | some word =>
    obtain ⟨word, rest, lt⟩ := word
    refine .read (static_takeWord? rest "if") fun found => ?_
    cases found with
    | some word' =>
      obtain ⟨word', rest', lt'⟩ := word'
      refine .parsed (follows_condition rest') fun cond cond' rest'' le hcond => ?_
      have hle : rest''.size ≤ rest'.size := le
      refine .parsed (follows_body rest'') fun n n' rest₃ le hn => ?_
      have hle' : rest₃.size ≤ rest''.size := le
      dsimp only
      rw [hn.span]
      refine .bind (follows_elseTail n'.span rest₃) ?_
      rintro ⟨more, otherwise, last, rest₄, le⟩ ⟨more', otherwise', _, _, le'⟩ ⟨hmore, hotherwise, rfl, rfl⟩
      refine .pure ⟨?_, hotherwise, rfl, rfl⟩
      dsimp only at hmore
      simp [hcond.eq, hn.eq, hmore]
    | none =>
      refine .parsed (follows_body rest) fun n n' rest' le hn => ?_
      exact .pure ⟨rfl, congrArg some hn.eq, hn.span, rfl⟩
termination_by ts.size * 8 + 1

theorem follows_forStmt (keyword : Span) (ts : Tokens) : ReadsAlike True (forStmt keyword ts) := by
  unfold forStmt
  refine .read (static_expect ts (.group .paren) _) fun head => ?_
  obtain ⟨head, rest, lt⟩ := head
  refine .next (steady_eachHead? head.inner) fun found => ?_
  cases found with
  | some each =>
    refine .next (steady_bindable each.item) fun item => .bind (follows_wholeExpr _ _) fun subject subject' hsubject => ?_
    refine .parsed (follows_inBlock (.refl _) (follows_body rest)) fun n n' rest' le hn => ?_
    refine .bind follows_newSite fun site site' hsite => follows_parsed (follows_node ?_ (fun _ => ?_) _ _)
    · rw [hn.span]
    · simp [NodeKind.bare, hsubject.eq, hn.eq, hsite trivial]
  | none =>
    refine follows_inBlock (.refl _) (.bind (follows_forHead head.inner) ?_)
    rintro ⟨init, cond, step⟩ ⟨init', cond', step'⟩ ⟨hinit, hcond, hstep⟩
    refine .parsed (follows_body rest) fun n n' rest' le hn => ?_
    refine follows_parsed (follows_node ?_ (fun _ => ?_) _ _)
    · rw [hn.span]
    · simp [NodeKind.bare, hinit, hcond, hstep, hn.eq]
termination_by ts.size * 8 + 1

theorem follows_forHead (ts : Tokens) : Follows True (forHead ts) (forHead ts) fun a b =>
    a.1.map Node.bare = b.1.map Node.bare ∧ a.2.1.map Node.bare = b.2.1.map Node.bare ∧
      a.2.2.map Node.bare = b.2.2.map Node.bare := by
  unfold forHead
  refine .bind (follows_forInit ts) ?_
  rintro ⟨init, rest, le⟩ ⟨init', _, le'⟩ ⟨hinit, rfl⟩
  refine .read (static_expect rest .semicolon _) fun _ => .bind (follows_forCondition _) ?_
  rintro ⟨cond, rest', le⟩ ⟨cond', _, le'⟩ ⟨hcond, rfl⟩
  refine .read (static_expect rest' .semicolon _) fun _ => .bind (follows_forStep _) fun step step' hstep => ?_
  exact .pure ⟨hinit, hcond, hstep⟩
termination_by ts.size * 8 + 7

theorem follows_forInit (ts : Tokens) : Follows True (forInit ts) (forInit ts) Part.Alike := by
  unfold forInit
  refine .read (static_peek ts) fun next => .ite Iff.rfl (fun _ => .pure ⟨rfl, rfl⟩) fun _ => ?_
  refine .bind (follows_statement ts) ?_
  rintro ⟨⟨n, rest, le⟩, closed, lt⟩ ⟨⟨n', _, le'⟩, _, lt'⟩ ⟨⟨hn, rfl⟩, -⟩
  exact .pure ⟨congrArg some hn.eq, rfl⟩
termination_by ts.size * 8 + 6

theorem follows_whileStmt (keyword : Span) (kind : LoopKind) (ts : Tokens) :
    ReadsAlike True (whileStmt keyword kind ts) := by
  unfold whileStmt
  refine .parsed (follows_condition ts) fun cond cond' rest le hcond => ?_
  have hle : rest.size ≤ ts.size := le
  refine .parsed (follows_body rest) fun n n' rest' le hn => ?_
  refine follows_parsed (follows_node ?_ (fun _ => ?_) _ _)
  · rw [hn.span]
  · simp [NodeKind.bare, hcond.eq, hn.eq]
termination_by ts.size * 8 + 7

theorem follows_doStmt (keyword : Span) (ts : Tokens) : ReadsAlike True (doStmt keyword ts) := by
  unfold doStmt
  refine .parsed (follows_body ts) fun n n' rest le hn => ?_
  refine .read (static_expectName rest _) fun word => .next (steady_tailLoop word.token) fun kind => ?_
  refine .parsed (follows_condition word.rest) fun cond cond' rest' le hcond => ?_
  refine follows_parsed (follows_node ?_ (fun _ => ?_) _ _)
  · rw [hcond.span]
  · simp [NodeKind.bare, hcond.eq, hn.eq]
termination_by ts.size * 8 + 7

theorem follows_functionStmt (keyword : Span) (ts : Tokens) : ReadsAlike True (functionStmt keyword ts) := by
  unfold functionStmt
  refine .read (static_expectName ts _) fun nameToken => ?_
  obtain ⟨nameToken, rest, le⟩ := nameToken
  refine .next (steady_bindable nameToken) fun name => .read (static_expect rest (.group .paren) _) fun head => ?_
  obtain ⟨head, rest', lt⟩ := head
  refine .next (steady_parameters [] head.inner) fun params => ?_
  refine .read (static_expect rest' (.group .brace) _) fun group => ?_
  obtain ⟨group, rest'', lt'⟩ := group
  refine .bind (follows_declare (by rfl) _ _) fun _ _ _ => ?_
  refine .bind (.modify fun _ _ h => { h with layouts := by rw [h.layouts] }) fun _ _ _ => ?_
  refine .bind (follows_inBlock (.refl _) (follows_block group.span false group.inner)) fun n n' hn => ?_
  refine .bind (follows_completeFunction name params _ hn) fun f f' hf => ?_
  exact follows_parsed (follows_node rfl (fun _ => by simp [NodeKind.bare, hf]) _ _)
termination_by ts.size * 8 + 1

end

/-! ## Programs and paths -/

theorem follows_program : Follows True program program (Node.Alike True) := by
  refine .bind .ask fun env env' henv => ?_
  rw [henv.source]
  exact .bind (follows_statements _) fun stmts stmts' h => follows_node rfl (fun _ => by simp [NodeKind.bare, h]) _ _

theorem follows_assignablePath : Follows True assignablePath assignablePath fun p p' => p.bare = p'.bare := by
  refine .bind .ask ?_
  rintro ⟨source, options, classes, library⟩ ⟨_, options', classes', library'⟩ ⟨rfl, -, -, -⟩
  refine .parsed (follows_operand _) fun n n' rest le hn => ?_
  refine .read (static_expectEnd rest) fun _ => ?_
  cases hk : n.kind with
  | property p site =>
    obtain ⟨p', site', hk', hp, hbare⟩ := hn.property hk
    rw [hk']
    exact .ite (by rw [Path.isAssignable_of_outline hp]) (fun _ => .pure (hbare trivial).1) fun _ => .fail
  | _ => exact .fail

end PathScript.Compile
