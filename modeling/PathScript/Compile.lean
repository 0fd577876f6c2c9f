import PathScript.Compile.Expr
import PathScript.Token.Cursor

/-! # Statements

Statements are separated by semicolons; behind one that ends with a block the
semicolon can be left out. -/

namespace PathScript.Compile

/-- A statement that was read. One that ends with a block has taken at least one token. -/
structure Statement (ts : Tokens) extends Parsed ts where
  closed : Bool
  lt : closed = true → rest.size < ts.size

/-! ## Parts that read no statement -/

def condition (ts : Tokens) : CompileM (Parsed ts) := do
  let ⟨group, rest, lt⟩ ← expect ts (.group .paren) "'('"
  pure ⟨← wholeExpr (group.span.start + 1) group.inner, rest, Taken.rest_le lt⟩

/-- `item : subject` or `Type item : subject` in the head of a `for`. -/
structure EachHead where
  item : Token
  ty : Option Ty
  subject : Tokens
  /-- Where the subject starts. -/
  start : Nat

/-- The head of a `for` over items, if it is one. -/
def eachHead? (ts : Tokens) : CompileM (Option EachHead) := do
  match ← takeName? ts with
  | none => pure none
  | some ⟨first, rest, _⟩ =>
    match ← takeKind? rest .colon with
    | some ⟨colon, rest, _⟩ => pure (some ⟨first, none, rest, colon.span.stop⟩)
    | none =>
      match ← takeName? rest with
      | none => pure none
      | some ⟨item, rest, _⟩ =>
        match ← takeKind? rest .colon with
        | none => pure none
        | some ⟨colon, rest, _⟩ => pure (some ⟨item, some (← typeOfToken first), rest, colon.span.stop⟩)

/-- A parameter: a name, or a type and a name. -/
def parameter (ts : Tokens) : CompileM (Part ts (Token × Option Ty)) := do
  let ⟨first, rest, le⟩ ← expectName ts "parameter name"
  match ← takeName? rest with
  | some ⟨name, rest, le'⟩ => pure ⟨(name, (← typeOfToken first).known?), rest, Tokens.size_le_trans le' le⟩
  | none => pure ⟨(first, none), rest, le⟩

/-- The parameters of a function; those of the given ones come first. -/
def parameters (params : List Param) (ts : Tokens) : CompileM (List Param) := do
  if ← atEnd ts then pure params
  else
    let ⟨(name, ty), rest, _⟩ ← parameter ts
    let param ← bindable name
    if params.any (·.name == param) then .fail (.duplicateParameter param) name.span.start
    else
      match ← separator rest isComma with
      | .done => pure (params ++ [⟨param, ty⟩])
      | .more rest _ => parameters (params ++ [⟨param, ty⟩]) rest
termination_by ts.size

/-- The first part of the name of an import. The word `static` may stand before it. -/
def importName (ts : Tokens) : CompileM (Named ts) := do
  let ⟨first, rest, le⟩ ← expectName ts "class name after import"
  if first.text = "static" then
    match ← takeName? rest with
    | some ⟨name, rest, le'⟩ => pure ⟨name, rest, Tokens.size_le_trans le' le⟩
    | none => pure ⟨first, rest, le⟩
  else pure ⟨first, rest, le⟩

/-- What an import binds to a name. -/
def importValue (name : Token) : CompileM Value := do
  let env ← CompileM.env
  match (env.options.imports.get? name.text).or ((env.library.get? name.text).map .cls) with
  | some v => pure v
  | none => .fail (.unknownImport name.text) name.span.start

/-- `import Name` or `import a.b.Name`, behind the word; the last part is the name. -/
def importStmt (keyword : Span) (ts : Tokens) : CompileM (Parsed ts) := do
  let ⟨first, rest, le⟩ ← importName ts
  let ⟨last, rest, le'⟩ ← lastName rest first "name after '.'"
  let value ← importValue last
  CompileM.modify fun st => { st with imports := st.imports.insert last.text value }
  pure ⟨← node (keyword.cover last.span) .void (.imports last.text value), rest, Tokens.size_le_trans le' le⟩

def assertStmt (keyword : Span) (ts : Tokens) : CompileM (Parsed ts) := do
  let ⟨n, rest, _⟩ ← expr ts
  let text := Text.trimChars (← sourceText n.span)
  pure ⟨← node (keyword.cover n.span) .bool (.asserts n (String.ofList text)), rest, by omega⟩

/-- `return` with or without a value, behind the word. -/
def returnStmt (keyword : Span) (ts : Tokens) : CompileM (Parsed ts) := do
  let next ← peek ts
  if next.kind == .semicolon || next.kind == .eof then
    pure ⟨← node keyword .void (.returns none), ts, ts.size_le_refl⟩
  else
    let ⟨n, rest, le⟩ ← expr ts
    pure ⟨← node (keyword.cover n.span) n.egress (.returns (some n)), rest, le⟩

/-- The head of a declaration: its type and its name, and behind the equals sign, if there is one, the value. -/
structure DeclHead (ts : Tokens) where
  ty : Ty
  tyToken : Token
  name : Token
  hasValue : Bool
  rest : Tokens
  le : rest.size ≤ ts.size

/-- The head of `Type name` or `Type name = value`, if it is one. -/
def declHead? (ts : Tokens) : CompileM (Option (DeclHead ts)) := do
  match ← takeName? ts with
  | none => pure none
  | some ⟨tyToken, rest, le⟩ =>
    match ← typeNamed tyToken.text with
    | none => pure none
    | some ty =>
      match ← takeName? rest with
      | none => pure none
      | some ⟨name, rest, le'⟩ =>
        have le := Tokens.size_le_trans le' le
        if (Operator.ofWord? name.text).isSome then pure none
        else
          match ← takeKind? rest (.assign none) with
          | some ⟨_, rest', lt⟩ =>
            have le' := Taken.rest_le lt
            pure (some ⟨ty, tyToken, name, true, rest', Tokens.size_le_trans le' le⟩)
          | none =>
            let next ← peek rest
            if next.kind == .semicolon || next.kind == .eof then
              pure (some ⟨ty, tyToken, name, false, rest, le⟩)
            else pure none

/-- An expression, or nothing if it is not there. -/
def optionalExpr (isThere : Bool) (ts : Tokens) : CompileM (Part ts (Option Node)) := do
  if isThere then
    let ⟨n, rest, le⟩ ← expr ts
    pure ⟨some n, rest, le⟩
  else pure ⟨none, ts, ts.size_le_refl⟩

/-- `Type name` or `Type name = value`, if the statement is one. -/
def declaration? (ts : Tokens) : CompileM (Option (Parsed ts)) := do
  match ← declHead? ts with
  | none => pure none
  | some ⟨ty, tyToken, nameToken, hasValue, rest, le⟩ =>
    let name ← bindable nameToken
    let ⟨value, rest, le'⟩ ← optionalExpr hasValue rest
    declare name ⟨ty, true⟩ nameToken.span.start
    let register ← allocate name
    let last := (value.map Node.span).getD nameToken.span
    let egress := match ty, value with
      | .any, some n => n.egress
      | _, _ => ty
    let n ← node (tyToken.span.cover last) egress (.assignment (.name name) none value (some ty) register)
    pure (some ⟨n, rest, Tokens.size_le_trans le' le⟩)

def lastType (stmts : List Node) : Ty := (stmts.getLast?.map Node.egress).getD .void

/-- The type of a chain of branches: theirs, if all are alike and one is always taken. -/
def chainType (branches : List (Node × Node)) (otherwise : Option Node) : Ty :=
  match branches, otherwise with
  | (_, first) :: _, some last =>
    if last.egress = first.egress && branches.all (fun b => b.2.egress == first.egress) then first.egress else .any
  | _, _ => .any

def isWith (n : Node) : Bool :=
  match n.kind with
  | .withItems _ _ => true
  | _ => false

/-- A declaration or an expression. A `with` ends with a block. -/
def plainStmt (ts : Tokens) : CompileM (Statement ts) := do
  match ← declaration? ts with
  | some n => pure ⟨n, false, fun h => by cases h⟩
  | none =>
    let n ← expr ts
    pure ⟨n, isWith n.node && decide (n.rest.size < ts.size), fun h => by simp at h; exact h.2⟩

/-- The branches of a conditional behind the first, what is taken otherwise, and where the chain ends. -/
structure Chain (ts : Tokens) where
  branches : List (Node × Node)
  otherwise : Option Node
  last : Span
  rest : Tokens
  le : rest.size ≤ ts.size

/-- The condition in the head of a `for`, if it is not left out. -/
def forCondition (ts : Tokens) : CompileM (Part ts (Option Node)) := do
  optionalExpr ((← peek ts).kind != .semicolon) ts

def forStep (ts : Tokens) : CompileM (Option Node) := do
  if ← atEnd ts then pure none
  else
    let ⟨n, rest, _⟩ ← expr ts
    expectEnd rest
    pure (some n)

/-- The kind of a loop that has its condition behind the body. -/
def tailLoop (word : Token) : CompileM LoopKind :=
  if word.text = "while" then pure .doWhile
  else if word.text = "until" then pure .doUntil
  else unexpected word

/-- A function whose body has been read, with the layout that was found. -/
def completeFunction (name : String) (params : List Param) (body : Node) (span : Span) : CompileM Function :=
  fun _ st =>
    let layout := st.layouts.head?.getD ⟨[], []⟩
    let f : Function := ⟨st.nextFunction, name, params, body, layout.registers, layout.freeVars, span⟩
    .ok (f, { st with
      layouts := st.layouts.tail
      nextFunction := st.nextFunction + 1
      functions := f :: st.functions })

/-! ## Statements -/

mutual

def statements (ts : Tokens) : CompileM (List Node) := do
  match ← takeKind? ts .semicolon with
  | some ⟨_, rest, _⟩ => statements rest
  | none =>
    if ← atEnd ts then pure []
    else
      let ⟨⟨n, rest, le⟩, closed, lt⟩ ← statement ts
      match ← takeKind? rest .semicolon with
      | some ⟨_, rest, _⟩ => pure (n :: (← statements rest))
      | none =>
        let next ← peek rest
        if next.kind == .eof then pure [n]
        else
          match closed, lt with
          | true, lt =>
            have := lt rfl
            pure (n :: (← statements rest))
          | false, _ => .fail (.semicolonExpected next.text) next.span.start
termination_by ts.size * 8 + 6

def statement (ts : Tokens) : CompileM (Statement ts) := do
  match ← take? ts (·.kind == .ident) with
  | some ⟨t, rest, lt⟩ =>
    let closing (n : Parsed rest) : Statement ts :=
      have lt' : n.rest.size < ts.size := by have := n.le; omega
      ⟨⟨n.node, n.rest, Nat.le_of_lt lt'⟩, true, fun _ => lt'⟩
    let opening (n : Parsed rest) : Statement ts :=
      ⟨⟨n.node, n.rest, by have := n.le; omega⟩, false, fun h => by cases h⟩
    if t.text = "if" then pure (closing (← ifStmt t.span rest))
    else if t.text = "foreach" || t.text = "for" then pure (closing (← forStmt t.span rest))
    else if t.text = "while" then pure (closing (← whileStmt t.span .whileLoop rest))
    else if t.text = "until" then pure (closing (← whileStmt t.span .untilLoop rest))
    else if t.text = "do" then pure (closing (← doStmt t.span rest))
    else if t.text = "def" || t.text = "function" then pure (closing (← functionStmt t.span rest))
    else if t.text = "return" then pure (opening (← returnStmt t.span rest))
    else if t.text = "import" then pure (opening (← importStmt t.span rest))
    else if t.text = "assert" then pure (opening (← assertStmt t.span rest))
    else plainStmt ts
  | none => plainStmt ts
termination_by ts.size * 8 + 5

/-- A block in braces or a single statement, in a scope of its own. -/
def body (ts : Tokens) : CompileM (Parsed ts) := do
  match ← takeKind? ts (.group .brace) with
  | some ⟨group, rest, lt⟩ => pure ⟨← block group.span true group.inner, rest, Taken.rest_le lt⟩
  | none =>
    let ⟨⟨n, rest, le⟩, _, _⟩ ← inBlock .empty (statement ts)
    pure ⟨← node n.span n.egress (.block [n] true), rest, le⟩
termination_by ts.size * 8 + 6

def block (span : Span) (ownScope : Bool) (ts : Tokens) : CompileM Node := do
  let stmts ← inBlock .empty (statements ts)
  node span (lastType stmts) (.block stmts ownScope)
termination_by ts.size * 8 + 7

/-- `if (cond) body else if (cond) body else body`, behind the first word. -/
def ifStmt (keyword : Span) (ts : Tokens) : CompileM (Parsed ts) := do
  let ⟨cond, rest, _⟩ ← condition ts
  let ⟨first, rest, _⟩ ← body rest
  let ⟨more, otherwise, last, rest, _⟩ ← elseTail first.span rest
  let branches := (cond, first) :: more
  pure ⟨← node (keyword.cover last) (chainType branches otherwise) (.ifChain branches otherwise), rest, by omega⟩
termination_by ts.size * 8 + 7

/-- The branches behind one that ends at some place. -/
def elseTail (last : Span) (ts : Tokens) : CompileM (Chain ts) := do
  match ← takeWord? ts "else" with
  | none => pure ⟨[], none, last, ts, ts.size_le_refl⟩
  | some ⟨_, rest, lt⟩ =>
    match ← takeWord? rest "if" with
    | some ⟨_, rest, _⟩ =>
      let ⟨cond, rest, _⟩ ← condition rest
      let ⟨n, rest, _⟩ ← body rest
      let ⟨more, otherwise, last, rest, _⟩ ← elseTail n.span rest
      pure ⟨(cond, n) :: more, otherwise, last, rest, by omega⟩
    | none =>
      let ⟨n, rest, le⟩ ← body rest
      pure ⟨[], some n, n.span, rest, Taken.le_of_le lt le⟩
termination_by ts.size * 8 + 1

/-- Both kinds of `for`, behind the word. -/
def forStmt (keyword : Span) (ts : Tokens) : CompileM (Parsed ts) := do
  let ⟨head, rest, _⟩ ← expect ts (.group .paren) "'(' after for"
  match ← eachHead? head.inner with
  | some each =>
    let item ← bindable each.item
    let subject ← wholeExpr each.start each.subject
    let ty := each.ty.bind Ty.known?
    let names := Dict.empty.insert item ⟨ty.getD .any, true⟩
    let ⟨n, rest, _⟩ ← inBlock names (body rest)
    pure ⟨← node (keyword.cover n.span) .void (.forEach item ty subject n (← newSite)), rest, by omega⟩
  | none =>
    inBlock .empty do
      let (init, cond, step) ← forHead head.inner
      let ⟨n, rest, _⟩ ← body rest
      pure ⟨← node (keyword.cover n.span) .void (.loop .forLoop init cond step n), rest, by omega⟩
termination_by ts.size * 8 + 1

/-- `init; cond; step`, each of which can be left out. -/
def forHead (ts : Tokens) : CompileM (Option Node × Option Node × Option Node) := do
  let ⟨init, rest, _⟩ ← forInit ts
  let ⟨_, rest, _⟩ ← expect rest .semicolon "';' in for head"
  let ⟨cond, rest, _⟩ ← forCondition rest
  let ⟨_, rest, _⟩ ← expect rest .semicolon "';' in for head"
  pure (init, cond, ← forStep rest)
termination_by ts.size * 8 + 7

/-- The statement that starts the head of a `for`, if it is not left out. -/
def forInit (ts : Tokens) : CompileM (Part ts (Option Node)) := do
  if (← peek ts).kind == .semicolon then pure ⟨none, ts, ts.size_le_refl⟩
  else
    let ⟨⟨n, rest, le⟩, _, _⟩ ← statement ts
    pure ⟨some n, rest, le⟩
termination_by ts.size * 8 + 6

def whileStmt (keyword : Span) (kind : LoopKind) (ts : Tokens) : CompileM (Parsed ts) := do
  let ⟨cond, rest, le⟩ ← condition ts
  let ⟨n, rest, le'⟩ ← body rest
  pure ⟨← node (keyword.cover n.span) .void (.loop kind none (some cond) none n), rest, Tokens.size_le_trans le' le⟩
termination_by ts.size * 8 + 7

def doStmt (keyword : Span) (ts : Tokens) : CompileM (Parsed ts) := do
  let ⟨n, rest, _⟩ ← body ts
  let ⟨word, rest, _⟩ ← expectName rest "'while' or 'until' after do body"
  let kind ← tailLoop word
  let ⟨cond, rest, _⟩ ← condition rest
  pure ⟨← node (keyword.cover cond.span) .void (.loop kind none (some cond) none n), rest, by omega⟩
termination_by ts.size * 8 + 7

/-- The definition of a function, behind the word. Its name is declared before its body, which can call it. -/
def functionStmt (keyword : Span) (ts : Tokens) : CompileM (Parsed ts) := do
  let ⟨nameToken, rest, _⟩ ← expectName ts "function name"
  let name ← bindable nameToken
  let ⟨head, rest, _⟩ ← expect rest (.group .paren) "'(' after function name"
  let params ← parameters [] head.inner
  let ⟨group, rest, _⟩ ← expect rest (.group .brace) "'\x7b' for function body"
  declare name ⟨.function, false⟩ nameToken.span.start
  CompileM.modify fun st => { st with layouts := ⟨params.map (·.name), []⟩ :: st.layouts }
  let names := Dict.ofList (params.map fun p => (p.name, ⟨p.ty.getD .any, true⟩))
  let n ← inBlock names (block group.span false group.inner)
  let span := keyword.cover group.span
  let function ← completeFunction name params n span
  pure ⟨← node span .void (.functionDecl function), rest, by omega⟩
termination_by ts.size * 8 + 1

end

end PathScript.Compile

/-! # Compilation

A program is compiled from its whole text, a path from a text that holds nothing
else. Both end with a tree or with the first fault, wherever the text stops
making sense. -/

namespace PathScript

/-- The outcome of a compilation: a tree, and the numbers it has used. -/
structure Compiled (α : Type) where
  tree : α
  /-- The functions of the program, in the order of their numbers. -/
  functions : List Function
  nextSite : SiteId

namespace Compile

/-- A compilation starts with one block and nothing in it. -/
def State.start (site function : Nat) : State := ⟨.empty, [.empty], [], 0, site, function, []⟩

/-- Runs a compilation whose sites and functions are numbered from some numbers on. -/
def run {α : Type} (x : CompileM α) (env : Env) (site function : Nat) : Except CompileError (Compiled α) :=
  match x env (.start site function) with
  | .ok (a, st) => .ok ⟨a, st.functions.reverse, st.nextSite⟩
  | .error ⟨fault, offset⟩ => .error (.atOffset env.source fault offset)

def program : CompileM Node := do
  let source := (← CompileM.env).source
  let stmts ← statements (.ofText source)
  node ⟨0, Text.byteLength source⟩ (lastType stmts) (.block stmts false)

def assignablePath : CompileM Path := do
  let ⟨n, rest, _⟩ ← operand (.ofText (← CompileM.env).source)
  expectEnd rest
  match n.kind with
  | .property path _ => if path.isAssignable then pure path else .fail .notAssignablePath n.span.start
  | _ => .fail .notAssignablePath n.span.start

end Compile

def compileProgram (env : Compile.Env) (site function : Nat) : Except CompileError (Compiled Node) :=
  match Compile.run Compile.program env site function with
  | .ok c => .ok c
  | .error e => .error { e with sourceName := env.options.sourceName }

def compilePath (env : Compile.Env) (site function : Nat) : Except CompileError (Compiled Path) :=
  Compile.run Compile.assignablePath env site function

end PathScript
