import Mathlib.Data.List.Basic
import PathScript.Compile
import PathScript.Proofs.Grown
import PathScript.Proofs.Returned

/-! # The grammar of compiled trees

A tree can hold any node anywhere, a compiled one cannot. Statements stand in
blocks, as bodies, and at the start of a `for`; everywhere else there are
expressions. In particular a `return` is never part of an expression.

Along with the places of nodes, the grammar says how static types are found. A
path has a type only where types are verified. -/

namespace PathScript

/-- An expression, in a compilation that gives types to paths or does not. -/
inductive IsExpression (typed : Bool) : Node → Prop where
  | literal {i : Info} {v : Value} (egress : i.egress = v.typeOf) (plain : v.isPlain = true) :
      IsExpression typed ⟨i, .literal v⟩
  | emptyWord {i : Info} (egress : i.egress = .null) : IsExpression typed ⟨i, .emptyWord⟩
  | property {i : Info} {path : Path} {site : SiteId} (parts : ∀ m ∈ path.nodes, IsExpression typed m)
      (egress : typed = false → i.egress = .any) : IsExpression typed ⟨i, .property path site⟩
  | not {i : Info} {a : Node} (operand : IsExpression typed a) (egress : i.egress = .bool) :
      IsExpression typed ⟨i, .unary .not a⟩
  | neg {i : Info} {a : Node} (operand : IsExpression typed a)
      (egress : i.egress = if a.egress.isNumeric then a.egress else .any) : IsExpression typed ⟨i, .unary .neg a⟩
  | binary {i : Info} {op : Operator} {l r : Node} (lhs : IsExpression typed l) (rhs : IsExpression typed r)
      (egress : i.egress = op.resultType l.egress r.egress) : IsExpression typed ⟨i, .binary op l r⟩
  | and {i : Info} {l r : Node} (lhs : IsExpression typed l) (rhs : IsExpression typed r) (egress : i.egress = .bool) :
      IsExpression typed ⟨i, .and l r⟩
  | or {i : Info} {l r : Node} (lhs : IsExpression typed l) (rhs : IsExpression typed r) (egress : i.egress = .bool) :
      IsExpression typed ⟨i, .or l r⟩
  | ternary {i : Info} {c a b : Node} (cond : IsExpression typed c) (yes : IsExpression typed a) (no : IsExpression typed b)
      (egress : i.egress = if a.egress = b.egress then a.egress else .any) : IsExpression typed ⟨i, .ternary c a b⟩
  | emptyTest {i : Info} {a : Node} {negate : Bool} (subject : IsExpression typed a) (egress : i.egress = .bool) :
      IsExpression typed ⟨i, .emptyTest a negate⟩
  | regexMatch {i : Info} {a p : Node} {compiled : Option Regex} (subject : IsExpression typed a)
      (pattern : IsExpression typed p) (egress : i.egress = .bool) : IsExpression typed ⟨i, .regexMatch a p compiled⟩
  /-- The type of what is written to takes part only in a compound assignment. -/
  | assignment {i : Info} {target : Target} {op : Option Operator} {value : Node} {register : Option Nat} (ty : Ty)
      (parts : ∀ m ∈ target.nodes, IsExpression typed m) (source : IsExpression typed value)
      (egress : i.egress = match op with
        | some op => op.resultType ty value.egress
        | none => value.egress) : IsExpression typed ⟨i, .assignment target op (some value) none register⟩
  | increment {i : Info} {target : Target} {delta : Int64} {before : Bool}
      (parts : ∀ m ∈ target.nodes, IsExpression typed m) (egress : typed = false → i.egress = .any) :
      IsExpression typed ⟨i, .increment target delta before⟩
  | withItems {i : Info} {target : Node} {items : List Node} (subject : IsExpression typed target)
      (parts : ∀ m ∈ items, IsExpression typed m) (egress : i.egress = target.egress) :
      IsExpression typed ⟨i, .withItems target items⟩
  | call {i : Info} {name : String} {args : List Node} (parts : ∀ m ∈ args, IsExpression typed m)
      (egress : i.egress = .any) : IsExpression typed ⟨i, .call name args⟩
  | newObject {i : Info} {creation : Creation} {site : SiteId} (parts : ∀ m ∈ creation.args, IsExpression typed m)
      (egress : i.egress = creation.ty) : IsExpression typed ⟨i, .newObject creation site⟩
  | collection {i : Info} {literal : CollectionLiteral} {site : SiteId} (parts : ∀ m ∈ literal.nodes, IsExpression typed m)
      (egress : i.egress = literal.ty) : IsExpression typed ⟨i, .collection literal site⟩
  | group {i : Info} {a : Node} (inner : IsExpression typed a) (egress : i.egress = a.egress) :
      IsExpression typed ⟨i, .group a⟩

inductive IsStatement (typed : Bool) : Node → Prop where
  | expression {n : Node} (h : IsExpression typed n) : IsStatement typed n
  | declaration {i : Info} {name : String} {value : Option Node} {ty : Ty} {register : Option Nat}
      (source : ∀ m ∈ value, IsExpression typed m)
      (egress : i.egress = if ty = .any then (value.map Node.egress).getD .any else ty) :
      IsStatement typed ⟨i, .assignment (.name name) none value (some ty) register⟩
  | ifChain {i : Info} {branches : List (Node × Node)} {otherwise : Option Node}
      (conds : ∀ b ∈ branches, IsExpression typed b.1) (bodies : ∀ b ∈ branches, IsStatement typed b.2)
      (last : ∀ m ∈ otherwise, IsStatement typed m) (egress : i.egress = Compile.chainType branches otherwise) :
      IsStatement typed ⟨i, .ifChain branches otherwise⟩
  | forEach {i : Info} {item : String} {ty : Option Ty} {subject body : Node} {site : SiteId}
      (items : IsExpression typed subject) (each : IsStatement typed body) (egress : i.egress = .void) :
      IsStatement typed ⟨i, .forEach item ty subject body site⟩
  | loop {i : Info} {kind : LoopKind} {init cond step : Option Node} {body : Node}
      (start : ∀ m ∈ init, IsStatement typed m) (test : ∀ m ∈ cond, IsExpression typed m)
      (next : ∀ m ∈ step, IsExpression typed m) (each : IsStatement typed body) (egress : i.egress = .void) :
      IsStatement typed ⟨i, .loop kind init cond step body⟩
  | functionDecl {i : Info} {fn : Function} (body : IsStatement typed fn.body) (egress : i.egress = .void) :
      IsStatement typed ⟨i, .functionDecl fn⟩
  | block {i : Info} {stmts : List Node} {ownScope : Bool} (parts : ∀ m ∈ stmts, IsStatement typed m)
      (egress : i.egress = Compile.lastType stmts) : IsStatement typed ⟨i, .block stmts ownScope⟩
  | returns {i : Info} {value : Option Node} (source : ∀ m ∈ value, IsExpression typed m)
      (egress : i.egress = (value.map Node.egress).getD .void) : IsStatement typed ⟨i, .returns value⟩
  | imports {i : Info} {name : String} {value : Value} (egress : i.egress = .void) :
      IsStatement typed ⟨i, .imports name value⟩
  | asserts {i : Info} {a : Node} {text : String} (test : IsExpression typed a) (egress : i.egress = .bool) :
      IsStatement typed ⟨i, .asserts a text⟩

section Parts

variable {typed : Bool} {n m : Node}

theorem IsExpression.child (h : IsExpression typed n) (hm : m ∈ n.children) : IsExpression typed m := by
  cases h with
  | literal | emptyWord => cases hm
  | property parts | call parts | newObject parts | collection parts | increment parts => exact parts m hm
  | not operand | neg operand | emptyTest operand | group operand => cases List.mem_singleton.mp hm; exact operand
  | binary lhs rhs | and lhs rhs | or lhs rhs | regexMatch lhs rhs =>
    rcases List.mem_pair.mp hm with rfl | rfl
    · exact lhs
    · exact rhs
  | ternary cond yes no =>
    simp only [Node.children, List.mem_cons, List.not_mem_nil, or_false] at hm
    rcases hm with rfl | rfl | rfl
    · exact cond
    · exact yes
    · exact no
  | assignment ty parts source =>
    rcases List.mem_append.mp hm with hm | hm
    · exact parts m hm
    · cases List.mem_singleton.mp hm
      exact source
  | withItems subject parts =>
    rcases List.mem_cons.mp hm with rfl | hm
    · exact subject
    · exact parts m hm

theorem IsExpression.part (h : IsExpression typed n) (hm : m.Occurs n) : IsExpression typed m := by
  induction hm with
  | here => exact h
  | under child _ ih => exact ih (h.child child)

theorem IsExpression.not_returns (h : IsExpression typed n) : ¬ n.Returns := by
  rintro ⟨m, hm, value, hk⟩
  cases h.part hm.occurs <;> cases hk

theorem IsExpression.not_functionDecl (h : IsExpression typed n) {fn : Function} : n.kind ≠ .functionDecl fn := by
  intro hk
  cases h <;> cases hk

theorem IsExpression.of_property {path : Path} {site : SiteId} (h : IsExpression typed n) (hk : n.kind = .property path site) :
    (∀ m ∈ path.nodes, IsExpression typed m) ∧ (typed = false → n.egress = .any) := by
  cases h with
  | property parts egress => cases hk; exact ⟨parts, egress⟩
  | _ => cases hk

theorem IsExpression.own_eq (h : IsExpression typed n) : n.own = n.children := by
  cases h <;> rfl

theorem IsStatement.child (h : IsStatement typed n) (hm : m ∈ n.children) : IsStatement typed m := by
  cases h with
  | expression h => exact .expression (h.child hm)
  | declaration source => exact .expression (source m (by simpa [Node.children, Target.nodes] using hm))
  | ifChain conds bodies last =>
    rcases List.mem_append.mp hm with hm | hm
    · obtain ⟨b, hb, hm⟩ := List.mem_flatMap.mp hm
      rcases List.mem_pair.mp hm with rfl | rfl
      · exact .expression (conds b hb)
      · exact bodies b hb
    · exact last m (Option.mem_toList.mp hm)
  | forEach items each =>
    rcases List.mem_pair.mp hm with rfl | rfl
    · exact .expression items
    · exact each
  | @loop i kind init cond step body start test next each =>
    rcases (Node.mem_children_of_loop rfl).mp hm with hm | hm | hm | rfl
    · exact start m hm
    · exact .expression (test m hm)
    · exact .expression (next m hm)
    · exact each
  | functionDecl body => cases List.mem_singleton.mp hm; exact body
  | block parts => exact parts m hm
  | returns source => exact .expression (source m (Option.mem_toList.mp hm))
  | imports => cases hm
  | asserts test => cases List.mem_singleton.mp hm; exact .expression test

theorem IsStatement.part (h : IsStatement typed n) (hm : m.Occurs n) : IsStatement typed m := by
  induction hm with
  | here => exact h
  | under child _ ih => exact ih (h.child child)

theorem IsStatement.body_of_functionDecl {fn : Function} (h : IsStatement typed n) (hk : n.kind = .functionDecl fn) :
    IsStatement typed fn.body := by
  cases h with
  | functionDecl body => cases hk; exact body
  | expression h => cases h <;> cases hk
  | _ => cases hk

end Parts

end PathScript
