import PathScript.Compile.Typing

/-! # Expressions

An expression is an assignment, or operands with operators between them and
possibly a conditional behind them. An operand is a primary followed by any
number of steps (`.name`, `?.name`, `.name(args)`, `[index]`); with steps, or
when the primary is a name, it is a property path. -/

namespace PathScript.Compile

/-! ## Parts that read no expression -/

/-- Takes `name =`, where the name is not read but only written. -/
def plainAssignment? (ts : Tokens) : CompileM (Option (Taken ts)) := do
  match ← takeName? ts with
  | none => pure none
  | some ⟨name, rest, le⟩ =>
    if isReserved name.text then pure none
    else
      match ← takeKind? rest (.assign none) with
      | none => pure none
      | some ⟨_, rest, lt⟩ => pure (some ⟨{ name with inner := .eof 0 }, rest, by simp only [Tokens.size]; omega⟩)

/-- The literal of a number, behind a minus sign or not. -/
def numberNode (t : Token) (minus : Option Span) : CompileM Node := do
  let v ← .ofExcept (Literal.number t.lexeme minus.isSome)
  literal v ((minus.map (·.cover t.span)).getD t.span)

/-- A token that continues a path. -/
def isStep (t : Token) : Bool := t.kind == .dot || t.kind == .safeDot || t.kind == .group .bracket

/-- Takes a number behind a minus sign, unless it is the start of a path. -/
def negativeNumber? (ts : Tokens) (minus : Span) : CompileM (Option (Parsed ts)) := do
  match ← takeKind? ts .number with
  | none => pure none
  | some ⟨number, rest, lt⟩ =>
    if isStep (← peek rest) then pure none
    else pure (some ⟨← numberNode number (some minus), rest, by omega⟩)

/-- The negation of a number, if it has one. -/
def negated? : Value → Option Value
  | .int n => (Number.neg? n).map .int
  | .float x => some (.float (-x))
  | _ => none

/-- The negation of an operand. That of a number literal is a literal. -/
def negation (minus : Span) (operand : Node) : CompileM Node := do
  let span := minus.cover operand.span
  match operand.literal?.bind negated? with
  | some v => literal v span
  | none => node span (if operand.egress.isNumeric then operand.egress else .any) (.unary .neg operand)

/-- The node of a path that starts at an offset, from its steps and where each of them ends. -/
def pathNode (start : Nat) (steps : List (Segment × Nat)) : CompileM Node := do
  let segments := steps.map (·.1)
  let cuts := steps.map fun s => s.2 - start
  let span : Span := ⟨start, start + cuts.getLast?.getD 0⟩
  let egress ← pathType segments start
  let info ← info span egress
  let text ← sourceText span
  pure ⟨info, .property ⟨String.ofList text, span, segments, cuts, info.line⟩ (← newSite)⟩

/-- Notes that a path starts with a name, unless it may turn out to be written to behind `this`. -/
def noteRoot (name : String) : CompileM Unit := do
  if (← CompileM.state).quiet = 0 then noteRead name

/-- The class literal that a name stands for behind `instanceof` and `is`. -/
def classOperand? (name : String) : CompileM (Option ClassRef) := do
  match ← classNamed name with
  | some c => pure (some c)
  | none => pure (if (Ty.ofName? name).isSome then some ⟨name, none⟩ else none)

/-- Refuses the name of a class that is not known, where types are checked. -/
def checkClass (name : Token) : CompileM Unit := do
  let isKnown := (← classNamed name.text).isSome || (Ty.ofName? name.text).isSome
  if !isKnown then untyped (.unknownClass name.text) name.span.start

def lastName (ts : Tokens) (name : Token) (what : String) : CompileM (Named ts) := do
  match ← takeKind? ts .dot with
  | none => pure ⟨name, ts, ts.size_le_refl⟩
  | some ⟨_, rest, lt⟩ =>
    let ⟨next, rest, le⟩ ← expectName rest what
    let ⟨last, rest, le'⟩ ← lastName rest next what
    pure ⟨last, rest, by omega⟩
termination_by ts.size

/-- How the tokens inside a group go on behind an item. -/
inductive Separated (ts : Tokens) where
  | done
  | more (rest : Tokens) (lt : rest.size < ts.size)

/-- Takes the separator behind an item. -/
def separator (ts : Tokens) (p : Token → Bool) : CompileM (Separated ts) := do
  match ← take? ts p with
  | some ⟨_, rest, lt⟩ => pure (.more rest (by omega))
  | none => do
    expectEnd ts
    pure .done

def isComma (t : Token) : Bool := t.kind == .comma

def isCommaOrSemicolon (t : Token) : Bool := t.kind == .comma || t.kind == .semicolon

/-! ## What the readers of expressions return -/

/-- Operators and operands behind a first operand. -/
structure OperatorTail (ts : Tokens) where
  items : List (Operator × Node)
  rest : Tokens
  le : rest.size ≤ ts.size

/-- The start of an operand: an expression, or the first step of a path. -/
inductive Head where
  | expression (node : Node)
  | step (segment : Segment)

structure Primary (ts : Tokens) where
  head : Head
  span : Span
  rest : Tokens
  le : rest.size ≤ ts.size

/-- Steps of a path, and where each of them ends. -/
structure Steps (ts : Tokens) where
  items : List (Segment × Nat)
  rest : Tokens
  le : rest.size ≤ ts.size

/-- The elements of a collection literal: those of a list or array, or the entries of a map. -/
inductive Elements where
  | items (nodes : List Node)
  | entries (pairs : List (Node × Node))

def Elements.literal (isArray : Bool) : Elements → CollectionLiteral
  | entries pairs => .map pairs
  | items nodes => if isArray then .array nodes else .list nodes

def collectionNode (span : Span) (spec : CollectionLiteral) : CompileM Node := do
  node span spec.ty (.collection spec (← newSite))

/-! ## Expressions -/

mutual

def expr (ts : Tokens) : CompileM (Parsed ts) := do
  match ← plainAssignment? ts with
  | some ⟨name, rest, lt⟩ =>
    let ⟨value, rest', le⟩ ← expr rest
    let ty := (((← CompileM.state).declared? name.text).map (·.ty)).getD .any
    pure ⟨← assignTo (.name name.text) name.span ty none value, rest', by omega⟩
  | none =>
    let ⟨first, rest, le⟩ ← unary ts
    match ← takeAs? rest assign? with
    | some (op, ⟨_, rest', lt⟩) =>
      let ⟨value, rest'', le'⟩ ← expr rest'
      pure ⟨← assignment first op value, rest'', by omega⟩
    | none =>
      let ⟨n, rest', le'⟩ ← operators first rest
      pure ⟨n, rest', by omega⟩
termination_by ts.size * 8 + 5

/-- An expression from its first operand on. -/
def operators (first : Node) (ts : Tokens) : CompileM (Parsed ts) := do
  let ⟨items, rest, le⟩ ← operatorTail ts
  let ⟨n, rest, le'⟩ ← conditional (← Precedence.fold binaryNode first items) rest
  pure ⟨n, rest, by omega⟩
termination_by ts.size * 8 + 2

/-- What follows a condition: `? a : b`, or nothing. -/
def conditional (cond : Node) (ts : Tokens) : CompileM (Parsed ts) := do
  match ← takeKind? ts .question with
  | none => pure ⟨cond, ts, ts.size_le_refl⟩
  | some ⟨_, rest, lt⟩ =>
    let ⟨yes, rest, le⟩ ← expr rest
    let ⟨_, rest, lt'⟩ ← expect rest .colon "':' in conditional expression"
    let ⟨no, rest, le'⟩ ← expr rest
    let egress := if yes.egress = no.egress then yes.egress else .any
    pure ⟨← node (cond.span.cover no.span) egress (.ternary cond yes no), rest, by omega⟩
termination_by ts.size * 8 + 1

/-- Operators with their right operands, as many as there are. -/
def operatorTail (ts : Tokens) : CompileM (OperatorTail ts) := do
  match ← takeAs? ts operator? with
  | none => pure ⟨[], ts, ts.size_le_refl⟩
  | some (op, ⟨_, rest, lt⟩) =>
    let ⟨operand, rest, le⟩ ←
      if op = .instanceOf || op = .is then typeOperand rest else unary rest
    let ⟨more, rest, le'⟩ ← operatorTail rest
    pure ⟨(op, operand) :: more, rest, by omega⟩
termination_by ts.size * 8 + 1

/-- The right operand of `instanceof` and `is`: a class, or any operand. -/
def typeOperand (ts : Tokens) : CompileM (Parsed ts) := do
  match ← takeName? ts with
  | none => unary ts
  | some ⟨name, rest, le⟩ =>
    match ← classOperand? name.text with
    | some c => pure ⟨← literal (.cls c) name.span, rest, le⟩
    | none => unary ts
termination_by ts.size * 8 + 5

/-- An operand with the signs and increments around it. -/
def unary (ts : Tokens) : CompileM (Parsed ts) := do
  match ← takeAs? ts sign? with
  | some (.not, ⟨sign, rest, lt⟩) =>
    let ⟨operand, rest, le⟩ ← unary rest
    pure ⟨← node (sign.span.cover operand.span) .bool (.unary .not operand), rest, by omega⟩
  | some (.minus, ⟨sign, rest, lt⟩) =>
    match ← negativeNumber? rest sign.span with
    | some ⟨n, rest, le⟩ => pure ⟨n, rest, by omega⟩
    | none =>
      let ⟨operand, rest, le⟩ ← unary rest
      pure ⟨← negation sign.span operand, rest, by omega⟩
  | some (.plus, ⟨_, rest, lt⟩) =>
    let ⟨operand, rest, le⟩ ← unary rest
    pure ⟨operand, rest, by omega⟩
  | some (.change delta, ⟨sign, rest, lt⟩) =>
    let ⟨target, rest, le⟩ ← operand rest
    pure ⟨← increment target delta true (sign.span.cover target.span), rest, by omega⟩
  | none =>
    let ⟨target, rest, le⟩ ← operand ts
    match ← takeAs? rest delta? with
    | none => pure ⟨target, rest, le⟩
    | some (delta, ⟨sign, rest, lt⟩) =>
      pure ⟨← increment target delta false (target.span.cover sign.span), rest, by omega⟩
termination_by ts.size * 8 + 4

def operand (ts : Tokens) : CompileM (Parsed ts) := do
  let ⟨head, span, rest, le⟩ ← primary ts
  let ⟨items, rest, le'⟩ ← steps rest
  match head with
  | .expression n =>
    if items.isEmpty then pure ⟨n, rest, by omega⟩
    else pure ⟨← pathNode span.start ((.base n, span.stop) :: items), rest, by omega⟩
  | .step s => pure ⟨← pathNode span.start ((s, span.stop) :: items), rest, by omega⟩
termination_by ts.size * 8 + 3

def primary (ts : Tokens) : CompileM (Primary ts) := do
  match ← take? ts (fun _ => true) with
  | none =>
    let t ← peek ts
    if t.kind = .ident then
      noteRoot t.text
      pure ⟨.step (.root t.text), t.span, ts, ts.size_le_refl⟩
    else unexpected t
  | some ⟨t, rest, lt⟩ =>
    let simple (n : Node) : Primary ts := ⟨.expression n, n.span, rest, by omega⟩
    match t.kind with
    | .ident =>
      let ⟨head, span, rest, le⟩ ← wordPrimary t rest
      pure ⟨head, span, rest, by omega⟩
    | .number => pure (simple (← numberNode t none))
    | .str =>
      let text ← .ofExcept (Literal.text t.lexeme)
      pure (simple (← literal (.str text) t.span))
    | .group .paren =>
      let inner ← wholeExpr (t.span.start + 1) t.inner
      pure (simple (← node t.span inner.egress (.group inner)))
    | .group .bracket => pure (simple (← collection t.span false t.inner))
    | .group .brace => pure (simple (← collection t.span true t.inner))
    | _ => unexpected t
termination_by ts.size * 8 + 2

/-- The start of an operand that is a word, behind it. -/
def wordPrimary (t : Token) (ts : Tokens) : CompileM (Primary ts) := do
  let simple (n : Node) : Primary ts := ⟨.expression n, n.span, ts, ts.size_le_refl⟩
  if t.text = "true" then pure (simple (← literal (.bool true) t.span))
  else if t.text = "false" then pure (simple (← literal (.bool false) t.span))
  else if t.text = "null" || t.text = "nil" then pure (simple (← literal .null t.span))
  else if t.text = "empty" then pure (simple (← node t.span .null .emptyWord))
  else if t.text = "new" then
    let ⟨n, rest, le⟩ ← creation t.span ts
    pure ⟨.expression n, n.span, rest, le⟩
  else if t.text = "with" then
    let ⟨n, rest, le⟩ ← withExpr t.span ts
    pure ⟨.expression n, n.span, rest, le⟩
  else if t.text = "this" then pure ⟨.step .this, t.span, ts, ts.size_le_refl⟩
  else if isReserved t.text then .fail (.reservedOperand t.text) t.span.start
  else
    match ← takeKind? ts (.group .paren) with
    | some ⟨group, rest, lt⟩ =>
      let args ← arguments group.inner
      let n ← node (t.span.cover group.span) .any (.call t.text args)
      pure ⟨.expression n, n.span, rest, Taken.rest_le lt⟩
    | none =>
      noteRoot t.text
      pure ⟨.step (.root t.text), t.span, ts, ts.size_le_refl⟩
termination_by ts.size * 8 + 2

def steps (ts : Tokens) : CompileM (Steps ts) := do
  match ← take? ts isStep with
  | none => pure ⟨[], ts, ts.size_le_refl⟩
  | some ⟨t, rest, lt⟩ =>
    match t.kind with
    | .group _ =>
      let index ← wholeExpr (t.span.start + 1) t.inner
      let ⟨more, rest, le⟩ ← steps rest
      pure ⟨(.index index false, t.span.stop) :: more, rest, by omega⟩
    | kind =>
      let safe := kind == .safeDot
      let ⟨name, rest, le⟩ ← expectName rest "member name after '.'"
      match ← takeKind? rest (.group .paren) with
      | some ⟨group, rest, lt'⟩ =>
        let args ← arguments group.inner
        let ⟨more, rest, le'⟩ ← steps rest
        pure ⟨(.method name.text args safe, group.span.stop) :: more, rest, by omega⟩
      | none =>
        let ⟨more, rest, le'⟩ ← steps rest
        pure ⟨(.property name.text safe, name.span.stop) :: more, rest, by omega⟩
termination_by ts.size * 8 + 1

/-- An expression that fills a group, whose inside starts at an offset. -/
def wholeExpr (start : Nat) (ts : Tokens) : CompileM Node := do
  if ← atEnd ts then .fail .emptyExpression start
  else
    let ⟨n, rest, _⟩ ← expr ts
    expectEnd rest
    pure n
termination_by ts.size * 8 + 6

def arguments (ts : Tokens) : CompileM (List Node) := do
  if ← atEnd ts then pure []
  else
    let ⟨n, rest, _⟩ ← expr ts
    match ← separator rest isComma with
    | .done => pure [n]
    | .more rest _ => pure (n :: (← arguments rest))
termination_by ts.size * 8 + 6

/-- `[a, b]`, `['k': v]`, `[:]` or, for an array, `{a, b}`. -/
def collection (span : Span) (isArray : Bool) (ts : Tokens) : CompileM Node := do
  let elements : Elements ←
    match ← (if isArray then pure none else takeKind? ts .colon) with
    | some ⟨_, rest, _⟩ => do
      expectEnd rest
      pure (.entries [])
    | none => do
      if ← atEnd ts then pure (.items [])
      else
        let ⟨first, rest, _⟩ ← expr ts
        if isArray then pure (.items (first :: (← moreItems rest))) else elementsTail [] first rest
  collectionNode span (elements.literal isArray)
termination_by ts.size * 8 + 6

/-- The items behind one. -/
def moreItems (ts : Tokens) : CompileM (List Node) := do
  match ← separator ts isComma with
  | .done => pure []
  | .more rest _ => arguments rest
termination_by ts.size * 8 + 1

/-- The elements of a collection from an expression on, which a colon makes a key. Behind entries, an expression
without a colon starts a list of its own, and the entries are dropped. -/
def elementsTail (entries : List (Node × Node)) (first : Node) (ts : Tokens) : CompileM Elements := do
  match ← takeKind? ts .colon with
  | none => pure (.items (first :: (← moreItems ts)))
  | some ⟨_, rest, _⟩ =>
    let ⟨value, rest, _⟩ ← expr rest
    let entries := entries ++ [(first, value)]
    match ← separator rest isComma with
    | .done => pure (.entries entries)
    | .more rest _ =>
      if ← atEnd rest then pure (.entries entries)
      else
        let ⟨next, rest, _⟩ ← expr rest
        elementsTail entries next rest
termination_by ts.size * 8 + 2

/-- `new Name(args)`, behind the word. -/
def creation (keyword : Span) (ts : Tokens) : CompileM (Parsed ts) := do
  let ⟨name, rest, le⟩ ← expectName ts "class name after new"
  let ⟨name, rest, le'⟩ ← lastName rest name "class name after '.'"
  let ⟨group, rest, lt⟩ ← expect rest (.group .paren) "'(' after class name"
  let args ← arguments group.inner
  checkClass name
  let span := keyword.cover group.span
  let made : Creation := ⟨name.text, args, span⟩
  pure ⟨← node span made.ty (.newObject made (← newSite)), rest, by omega⟩
termination_by ts.size * 8 + 1

/-- `with (target) { a = 1, b.c = 2 }`, behind the word. -/
def withExpr (keyword : Span) (ts : Tokens) : CompileM (Parsed ts) := do
  let ⟨head, rest, lt⟩ ← expect ts (.group .paren) "'(' after with"
  let target ← wholeExpr (head.span.start + 1) head.inner
  let ⟨body, rest, lt'⟩ ← expect rest (.group .brace) "'\x7b' for with body"
  let items ← withItems body.inner
  pure ⟨← node (keyword.cover body.span) target.egress (.withItems target items), rest, by omega⟩
termination_by ts.size * 8 + 1

def withItems (ts : Tokens) : CompileM (List Node) := do
  if ← atEnd ts then pure []
  else
    let ⟨n, rest, _⟩ ← withItem ts
    match ← separator rest isCommaOrSemicolon with
    | .done => pure [n]
    | .more rest _ => pure (n :: (← withItems rest))
termination_by ts.size * 8 + 6

/-- An item of the body of a `with`: an assignment to a member of the subject, or any other expression. -/
def withItem (ts : Tokens) : CompileM (Parsed ts) := do
  CompileM.modify fun st => { st with quiet := st.quiet + 1 }
  let ⟨first, rest, le⟩ ← unary ts
  CompileM.modify fun st => { st with quiet := st.quiet - 1 }
  match ← takeAs? rest assign? with
  | some (op, ⟨_, rest', lt⟩) =>
    let ⟨value, rest'', le'⟩ ← expr rest'
    pure ⟨← assignment (← rebase first) op value, rest'', by omega⟩
  | none =>
    let ⟨n, rest', le'⟩ ← operators first rest
    pure ⟨n, rest', by omega⟩
termination_by ts.size * 8 + 5

end

end PathScript.Compile
