import PathScript.Access.Unit
import PathScript.Document.Json
import PathScript.Scope
import PathScript.Token

/-! # Inspection

For exchange a value loses what plain data cannot hold. For inspection every
value is tagged with its form, and tokens, bindings, classes and program trees
are written out part by part. -/

namespace PathScript

structure View where
  functions : Array Function
  heap : Heap

namespace View

/-- Values deeper than this are not written out. -/
def depthLimit : Nat := 60

def ofTy (t : Ty) : Document := .str t.name

/-- The document of a value that is written out for some levels. -/
def valueWithin (w : View) : Nat → Value → Document
  | 0, _ => .str "deep"
  | _ + 1, .null => .null
  | _ + 1, .void => .str "void"
  | _ + 1, .bool b => .bool b
  | _ + 1, .int n => .map [("int", .str (toString n.toInt))]
  | _ + 1, .float x => .map [("float", .str (Number.floatText x))]
  | _ + 1, .char c => .map [("char", .str (String.singleton c))]
  | _ + 1, .str s => .map [("str", .str s)]
  | n + 1, .list a => .map [("list", .list ((w.heap.list a).toList.map (w.valueWithin n)))]
  | n + 1, .array a => .map [("array", .list ((w.heap.array a).toList.map (w.valueWithin n)))]
  | n + 1, .map a =>
    .map [("map", .list ((w.heap.map a).entries.map fun e => .list [.str e.1, w.valueWithin n e.2]))]
  | n + 1, .object c a =>
    .map [("object", .str c.name),
      ("fields", .list ((w.heap.object a).map fun e => .list [.str e.1, w.valueWithin n e.2]))]
  | _ + 1, .native f => .map [("native", .str f.name)]
  | _ + 1, .cls c => .map [("class", .str c.name)]
  | _ + 1, .function f =>
    match w.functions[f.id]? with
    | some fn =>
      .map [("function", .str fn.name),
        ("params", .list (fn.params.map fun p => .list [.str p.name, .ofOption ofTy p.ty])),
        ("registers", .texts fn.registers), ("free", .texts fn.freeVars)]
    | none => .map [("function", .str f.name)]

def value (w : View) (v : Value) : Document := w.valueWithin (depthLimit + 1) v

/-- A value that may be missing; `null` is not missing. -/
def optional (w : View) : Option Value → Document
  | some v => .map [("some", w.value v)]
  | none => .str "none"

def bindings (w : View) (es : List (String × Value)) : Document :=
  .list (es.map fun e => .list [.str e.1, w.value e.2])

/-- What a slot holds: the value, the declared type, and the text for diagnosis. -/
def binding (w : View) (b : Binding) : Document :=
  .list [w.value b.value, .ofOption ofTy b.ty, .ofOption .str (b.debug w.heap)]

def declarations (c : ClassDef) : List (String × Document) :=
  [("name", .str c.name),
    ("fields", .list (c.fields.zipIdx.map fun (f, i) => .list [.str f.name, ofTy f.ty, .ofNat i])),
    ("methods", .texts (c.methods.map (·.signature))),
    ("constructors", .texts (c.constructors.map (·.signature)))]

/-- The counts of a registry, in the order of their declaration. -/
def stats (s : RegistryStats) : Document :=
  .list ([s.live, s.installed, s.reused, s.evictions, s.generation, s.ceiling].map .ofNat)

def lexeme (l : Lexeme) : Document :=
  .list [.str l.kind.name, .ofNat l.span.start, .ofNat l.span.stop, .str l.text]

/-! ## Program trees -/

def span (s : Span) : Document := .list [.ofNat s.start, .ofNat s.stop]

def loopName : LoopKind → String
  | .whileLoop => "While"
  | .untilLoop => "Until"
  | .doWhile => "DoWhile"
  | .doUntil => "DoUntil"
  | .forLoop => "For"

def unaryName : UnaryOp → String
  | .not => "Not"
  | .neg => "Neg"

/-- What every node shows. A node that shows a type of its own shows no other. -/
def shell (info : Info) (kind : String) (more : List (String × Document)) : Document :=
  let line := match info.line with
    | some n => [("line", .ofNat n)]
    | none => []
  let ty := if more.any (·.1 == "type") then [] else [("type", ofTy info.egress)]
  .map ([("kind", .str kind), ("span", span info.span)] ++ line ++ ty ++ more)

mutual

def node (w : View) : Node → Document
  | ⟨info, kind⟩ => w.entries info kind

/-- The document of a node, by what the node does. -/
def entries (w : View) (info : Info) : NodeKind → Document
  | .literal v => shell info "Literal" [("value", w.value v)]
  | .emptyWord => shell info "Empty" []
  | .property p _ => shell info "Property" [("path", w.path p)]
  | .unary op n => shell info "Unary" [("op", .str (unaryName op)), ("operand", w.node n)]
  | .binary op l r => shell info "Binary" [("op", .str op.symbol), ("lhs", w.node l), ("rhs", w.node r)]
  | .and l r => shell info "And" [("lhs", w.node l), ("rhs", w.node r)]
  | .or l r => shell info "Or" [("lhs", w.node l), ("rhs", w.node r)]
  | .ternary c t e => shell info "Ternary" [("cond", w.node c), ("then", w.node t), ("else", w.node e)]
  | .emptyTest s negate => shell info "EmptyTest" [("subject", w.node s), ("negate", .bool negate)]
  | .regexMatch s p compiled =>
    shell info "RegexMatch" [("subject", w.node s), ("pattern", w.node p), ("compiled", .bool compiled.isSome)]
  | .assignment t op v decl register =>
    shell info "Assignment" [("target", w.target t), ("op", .ofOption (fun o => .str o.symbol) op),
      ("value", w.node? v), ("decl", .ofOption ofTy decl), ("register", .ofOption .ofNat register)]
  | .increment t delta before =>
    shell info "Increment" [("target", w.target t), ("delta", .int delta.toInt), ("prefix", .bool before)]
  | .ifChain branches otherwise =>
    shell info "If" [("branches", .list (w.pairs branches)), ("else", w.node? otherwise)]
  | .forEach item ty subject body _ =>
    shell info "ForEach" [("item", .str item), ("type", .ofOption ofTy ty), ("subject", w.node subject),
      ("body", w.node body)]
  | .loop kind init cond step body =>
    shell info "Loop" [("loop", .str (loopName kind)), ("init", w.node? init), ("cond", w.node? cond),
      ("step", w.node? step), ("body", w.node body)]
  | .withItems t items => shell info "With" [("target", w.node t), ("items", .list (w.nodes items))]
  | .functionDecl ⟨id, name, params, body, _, _, _⟩ =>
    shell info "FunctionDecl" [("function", w.value (.function ⟨id, name, params.map (·.name)⟩)),
      ("body", w.node body)]
  | .call name args => shell info "FunctionCall" [("name", .str name), ("args", .list (w.nodes args))]
  | .newObject ⟨name, args, _⟩ _ =>
    shell info "NewObject" [("class", .str name), ("args", .list (w.nodes args))]
  | .collection (.list items) _ => shell info "List" [("items", .list (w.nodes items))]
  | .collection (.array items) _ => shell info "Array" [("items", .list (w.nodes items))]
  | .collection (.map es) _ => shell info "Map" [("entries", .list (w.pairs es))]
  | .group n => shell info "Substatement" [("inner", w.node n)]
  | .block stmts ownScope =>
    shell info "Block" [("scoped", .bool ownScope), ("stmts", .list (w.nodes stmts))]
  | .returns v => shell info "Return" [("value", w.node? v)]
  | .imports name v => shell info "Import" [("name", .str name), ("value", w.value v)]
  | .asserts n text => shell info "Assert" [("expr", w.node n), ("text", .str text)]

def node? (w : View) : Option Node → Document
  | some n => w.node n
  | none => .null

def nodes (w : View) : List Node → List Document
  | [] => []
  | n :: rest => w.node n :: w.nodes rest

def pairs (w : View) : List (Node × Node) → List Document
  | [] => []
  | (a, b) :: rest => .list [w.node a, w.node b] :: w.pairs rest

def target (w : View) : Target → Document
  | .name n => .map [("name", .str n)]
  | .path p _ => .map [("path", w.path p)]

def path (w : View) : Path → Document
  | ⟨text, at_, segments, cuts, _⟩ =>
    .map [("text", .str text), ("span", span at_), ("cuts", .list (cuts.map .ofNat)),
      ("segments", .list (w.segments segments))]

def segments (w : View) : List Segment → List Document
  | [] => []
  | s :: rest => w.segment s :: w.segments rest

def segment (w : View) : Segment → Document
  | .root name => .list [.str "root", .str name]
  | .this => .list [.str "this"]
  | .base n => .list [.str "base", w.node n]
  | .property name safe => .list [.str "property", .str name, .bool safe]
  | .index n safe => .list [.str "index", w.node n, .bool safe]
  | .method name args safe => .list [.str "method", .str name, .list (w.nodes args), .bool safe]

end

end View

end PathScript
