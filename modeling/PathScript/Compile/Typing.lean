import PathScript.Compile.Names

/-! # Static types of paths

When types are verified, a path is walked step by step from the type of its
root. A step whose receiver is not known has no known type either; in strict
compilations a name or member that a known receiver lacks is a fault. -/

namespace PathScript.Compile

/-- Notes a name that nothing declares: a fault in strict compilations, unless the path is not typed at all. -/
def untyped (fault : CompileFault) (offset : Nat) : CompileM Unit := do
  if (← CompileM.state).quiet = 0 && (← CompileM.env).options.strict then .fail fault offset

def rootType (name : String) (offset : Nat) : CompileM Ty := do
  let env ← CompileM.env
  let st ← CompileM.state
  match st.declared? name with
  | some d => pure d.ty
  | none =>
    match env.options.inputs.get? name with
    | some ty => pure ty
    | none =>
      match imported? env st name with
      | some v => pure v.typeOf
      | none =>
        match classNamed? env st name with
        | some c => pure (.cls c.name)
        | none => do
          untyped (.unresolvedVariable name) offset
          pure .any

/-- The class whose members a receiver of some type has, and whether those are its static ones. -/
def receiverClass? (env : Env) (st : State) : Ty → Option (ClassDef × Bool)
  | .object name => (classNamed? env st name).map fun c => (env.classes.definition c, false)
  | .cls name => (classNamed? env st name).map fun c => (env.classes.definition c, true)
  | ty => ty.builtinClass?.map fun c => (c, false)

def memberType? (c : ClassDef) (statics : Bool) (name : String) : Option Ty :=
  if statics then (c.static? name).map Value.typeOf
  else ((c.field? name).map (·.ty)).or ((c.getter? name).map (·.returns))

def propertyType (receiver : Ty) (name : String) (offset : Nat) : CompileM Ty := do
  let isLength := name = "length" || name = "size"
  if receiver = .any || receiver = .null || receiver = .map then pure .any
  else if receiver = .array && isLength then pure .int
  else
    match receiverClass? (← CompileM.env) (← CompileM.state) receiver with
    | none => pure .any
    | some (c, statics) =>
      match memberType? c statics name with
      | some ty => pure ty
      | none => do
        untyped (.unresolvedMember (c.name ++ "." ++ name)) offset
        pure .any

/-- The type of what a method returns. A method that exists for other arguments is left to run time. -/
def methodType (receiver : Ty) (name : String) (args : List Ty) (offset : Nat) : CompileM Ty := do
  if receiver = .any || receiver = .null then pure .any
  else if name = "toString" && args.length = 0 then pure .str
  else if name = "equals" && args.length = 1 then pure .bool
  else
    match receiverClass? (← CompileM.env) (← CompileM.state) receiver with
    | none => pure .any
    | some (c, statics) =>
      match resolveOverload MethodDef.params args (c.methodsNamed name args.length statics) with
      | some r => pure r.member.returns
      | none => do
        if !c.hasMethod name then untyped (.unresolvedMethod (c.name ++ "." ++ name ++ "()")) offset
        pure .any

/-- The type behind a step, from the type before it. -/
def stepType (offset : Nat) (receiver : Ty) : Segment → CompileM Ty
  | .root name => rootType name offset
  | .this => pure .any
  | .base n => pure n.egress
  | .property name _ => propertyType receiver name offset
  | .index _ _ => pure .any
  | .method name args _ => methodType receiver name (args.map Node.egress) offset

def pathType (segments : List Segment) (offset : Nat) : CompileM Ty := do
  if (← CompileM.state).quiet = 0 && (← CompileM.env).options.verifies then
    segments.foldlM (stepType offset) .any
  else pure .any

/-! # Targets

An assignment writes to a bare name or to a path. Inside the body of a `with`
the targets are rebased: what they name belongs to the subject of the `with`,
which is `this` there. -/

/-- What is written to by an assignment with this left side. -/
def targetOf (n : Node) : CompileM Target := do
  let text := String.ofList (Text.trimChars (← sourceText n.span))
  if isReserved text then .fail (.reservedTarget text) n.span.start
  else
    match n.kind with
    | .property path _ =>
      match path.asName? with
      | some name => pure (.name name)
      | none =>
        if path.isAssignable then pure (.path path (← newSite))
        else .fail .methodTarget n.span.start
    | _ => .fail .notAssignable n.span.start

/-- The register of what an assignment binds. A name that is not declared yet takes the type of the value. -/
def bindTarget (target : Target) (ty : Ty) (offset : Nat) : CompileM (Option Nat) := do
  match target with
  | .path _ _ => pure none
  | .name name =>
    if ((← CompileM.state).declared? name).isNone then declare name ⟨ty, false⟩ offset
    allocate name

/-- An assignment to a target of some place and type. -/
def assignTo (target : Target) (span : Span) (ty : Ty) (op : Option Operator) (value : Node) : CompileM Node := do
  let span := span.cover value.span
  let egress := match op with
    | some op => op.resultType ty value.egress
    | none => value.egress
  let register ← bindTarget target value.egress span.start
  node span egress (.assignment target op (some value) none register)

def assignment (left : Node) (op : Option Operator) (value : Node) : CompileM Node := do
  let target ← targetOf left
  assignTo target left.span left.egress op value

def increment (left : Node) (delta : Int64) (before : Bool) (span : Span) : CompileM Node := do
  let target ← targetOf left
  node span left.egress (.increment target delta before)

/-- The left side of an assignment in the body of a `with`. -/
def rebase (n : Node) : CompileM Node := do
  match n.kind with
  | .property path site =>
    match path.segments with
    | .this :: _ => pure n
    | _ => pure ⟨n.info, .property path.rebased site⟩
  | _ => .fail .withTarget n.span.start

end PathScript.Compile

/-! # Precedence

An expression is read as operands with operators between them. Operands wait,
each with the operator to its right, until an operator comes that binds less
tightly; then they are joined, the innermost first. The runs between the logical
operators are joined before the logical operators themselves.

What joining two operands means is left open, so that the order in which
operands are joined can be studied apart from what is built. -/

namespace PathScript.Precedence

variable {m : Type → Type} [Monad m] {α : Type} (build : Operator → α → α → m α)

/-- Whether an operator that waits takes the next operand before the operator behind it. -/
def bindsLeft (waiting op : Operator) : Bool :=
  decide (op.precedence < waiting.precedence) ||
    (waiting.precedence == op.precedence && !op.isRightAssoc)

/-- Joins an operand to the waiting ones that bind tighter than an operator. -/
def collapse (op : Operator) : List (α × Operator) → α → m (List (α × Operator) × α)
  | [], last => pure ([], last)
  | (lhs, waiting) :: outer, last =>
    if bindsLeft waiting op then do collapse op outer (← build waiting lhs last)
    else pure ((lhs, waiting) :: outer, last)

/-- Joins an operand to all waiting ones. -/
def finish : List (α × Operator) → α → m α
  | [], last => pure last
  | (lhs, waiting) :: outer, last => do finish outer (← build waiting lhs last)

/-- The tree of a sequence, with operands that wait in front of it. -/
def shunt (waiting : List (α × Operator)) (last : α) : List (Operator × α) → m α
  | [] => finish build waiting last
  | (op, rhs) :: more => do
    let (waiting, last) ← collapse build op waiting last
    shunt ((last, op) :: waiting) rhs more

/-- The runs between logical operators, each joined. The current run is given by its first operand and, the last
first, the rest. -/
def runs (first : α) (run : List (Operator × α)) : List (Operator × α) → m (α × List (Operator × α))
  | [] => do pure (← shunt build [] first run.reverse, [])
  | (op, rhs) :: more =>
    if op.isLogical then do
      let joined ← shunt build [] first run.reverse
      let (next, others) ← runs rhs [] more
      pure (joined, (op, next) :: others)
    else runs first ((op, rhs) :: run) more

def fold (first : α) (tail : List (Operator × α)) : m α := do
  let (first, joins) ← runs build first [] tail
  shunt build [] first joins

end PathScript.Precedence

/-! # Operator nodes

An operator on two literals is replaced by its value, unless it fails on them:
then it stays, to fail when it is evaluated. A literal pattern is compiled, so
that a bad one is a compile error. -/

namespace PathScript.Compile

def isEmptyWord (n : Node) : Bool :=
  match n.kind with
  | .emptyWord => true
  | _ => false

/-- The value of an operator on two literals, if it has one. -/
def constant? (op : Operator) (lhs rhs : Node) : Option Value := do
  match op.apply (← lhs.literal?) (← rhs.literal?) .empty with
  | .ok v _ => some v
  | _ => none

def regexNode (subject pattern : Node) : CompileM Node := do
  let span := subject.span.cover pattern.span
  let compiled ← match pattern.literal? with
    | some (.str text) =>
      match Regex.whole text with
      | .ok r => pure (some r)
      | .error e => .fail (.badPattern text e.message) pattern.span.start
    | _ => pure none
  node span .bool (.regexMatch subject pattern compiled)

/-- The node of an operator that takes the values of both sides. -/
def valuesNode (op : Operator) (lhs rhs : Node) (span : Span) : CompileM Node :=
  match constant? op lhs rhs with
  | some v => literal v span
  | none => node span (op.resultType lhs.egress rhs.egress) (.binary op lhs rhs)

def binaryNode (op : Operator) (lhs rhs : Node) : CompileM Node := do
  let span := lhs.span.cover rhs.span
  match op with
  | .and => node span .bool (.and lhs rhs)
  | .or => node span .bool (.or lhs rhs)
  | .regexMatch => regexNode lhs rhs
  | .eq | .ne =>
    if isEmptyWord rhs then node span .bool (.emptyTest lhs (op == .ne))
    else if isEmptyWord lhs then node span .bool (.emptyTest rhs (op == .ne))
    else valuesNode op lhs rhs span
  | _ => valuesNode op lhs rhs span

end PathScript.Compile
