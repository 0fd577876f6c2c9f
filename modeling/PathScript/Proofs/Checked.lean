import PathScript.Compile.Expr

/-! # Checks of types

The static type of a path is looked up step by step. Nothing is recorded on the
way. A name, a property or a method that is not known is a fault in strict
compilations only, at the offset of the path; in others it has no type. -/

namespace PathScript.Compile

variable {α β : Type} {offset : Nat}

/-- A step that leaves the state alone. It fails in strict compilations only, at an offset, and not for want of text. -/
def Checks (offset : Nat) (x : CompileM α) : Prop :=
  ∀ env st, (∃ a, x env st = .ok (a, st)) ∨
    (env.options.strict = true ∧ ∃ fault, fault ≠ .outsideSource ∧ x env st = .error ⟨fault, offset⟩)

namespace Checks

variable {x y : CompileM α} {f : α → CompileM β}

theorem pure {a : α} : Checks offset (pure a) := fun _ _ => .inl ⟨a, rfl⟩

theorem env : Checks offset CompileM.env := fun env _ => .inl ⟨env, rfl⟩

theorem state : Checks offset CompileM.state := fun _ st => .inl ⟨st, rfl⟩

theorem bind (hx : Checks offset x) (hf : ∀ a, Checks offset (f a)) : Checks offset (x >>= f) := by
  intro env st
  change (∃ b, CompileM.bind x f env st = _) ∨ (_ ∧ ∃ fault, _ ∧ CompileM.bind x f env st = _)
  unfold CompileM.bind
  obtain ⟨a, ha⟩ | ⟨hstrict, fault, hfault, he⟩ := hx env st
  · rw [ha]
    exact hf a env st
  · rw [he]
    exact .inr ⟨hstrict, fault, hfault, rfl⟩

theorem ite {c : Prop} [Decidable c] (hx : Checks offset x) (hy : Checks offset y) :
    Checks offset (if c then x else y) := by
  split
  · exact hx
  · exact hy

end Checks

theorem checks_classNamed (name : String) : Checks offset (classNamed name) := fun _ _ => .inl ⟨_, rfl⟩

theorem checks_untyped {fault : CompileFault} (hfault : fault ≠ .outsideSource) (offset : Nat) :
    Checks offset (untyped fault offset) := by
  intro env st
  by_cases h : (decide (st.quiet = 0) && env.options.strict) = true
  · refine .inr ⟨(Bool.and_eq_true _ _ ▸ h).2, fault, hfault, ?_⟩
    change (if _ then CompileM.fail fault offset else Pure.pure ()) env st = _
    rw [if_pos h]
    rfl
  · refine .inl ⟨(), ?_⟩
    change (if _ then CompileM.fail fault offset else Pure.pure ()) env st = _
    rw [if_neg h]
    rfl

theorem checks_checkClass (name : Token) : Checks name.span.start (checkClass name) :=
  .bind (checks_classNamed _) fun _ => .ite (checks_untyped (by simp) _) .pure

theorem checks_rootType (name : String) (offset : Nat) : Checks offset (rootType name offset) := by
  refine .bind .env fun env => .bind .state fun st => ?_
  split
  · exact .pure
  split
  · exact .pure
  split
  · exact .pure
  split
  · exact .pure
  · exact .bind (checks_untyped (by simp) _) fun _ => .pure

theorem checks_propertyType (receiver : Ty) (name : String) (offset : Nat) :
    Checks offset (propertyType receiver name offset) := by
  refine .ite .pure (.ite .pure (.bind .env fun env => .bind .state fun st => ?_))
  split
  · exact .pure
  split
  · exact .pure
  · exact .bind (checks_untyped (by simp) _) fun _ => .pure

theorem checks_methodType (receiver : Ty) (name : String) (args : List Ty) (offset : Nat) :
    Checks offset (methodType receiver name args offset) := by
  refine .ite .pure (.ite .pure (.ite .pure (.bind .env fun env => .bind .state fun st => ?_)))
  split
  · exact .pure
  split
  · exact .pure
  · exact .ite (.bind (checks_untyped (by simp) _) fun _ => .pure) .pure

theorem checks_pathType (segments : List Segment) (offset : Nat) : Checks offset (pathType segments offset) := by
  have step : ∀ ty s, Checks offset (stepType offset ty s) := by
    intro ty s
    cases s with
    | root name => exact checks_rootType name offset
    | property name safe => exact checks_propertyType ty name offset
    | method name args safe => exact checks_methodType ty name _ offset
    | _ => exact .pure
  have folded : ∀ ty, Checks offset (segments.foldlM (stepType offset) ty) := by
    induction segments with
    | nil => exact fun ty => .pure
    | cons s rest ih =>
      intro ty
      rw [List.foldlM_cons]
      exact .bind (step ty s) fun ty => ih ty
  exact .bind .state fun _ => .bind .env fun _ => .ite (folded .any) .pure

/-! ## Steps that look at tokens only -/

/-- A step that depends neither on what is compiled for nor on what was compiled before. -/
def Static (x : CompileM α) : Prop := ∃ r, x = .ofExcept r

namespace Static

variable {x y : CompileM α} {f : α → CompileM β}

theorem pure (a : α) : Static (pure a) := ⟨.ok a, rfl⟩

theorem fail {fault : CompileFault} {offset : Nat} : Static (.fail fault offset : CompileM α) :=
  ⟨.error ⟨fault, offset⟩, rfl⟩

theorem bind (hx : Static x) (hf : ∀ a, Static (f a)) : Static (x >>= f) := by
  obtain ⟨r, rfl⟩ := hx
  cases r with
  | error e => exact ⟨.error e, rfl⟩
  | ok a => exact hf a

theorem ite {c : Prop} [Decidable c] (hx : Static x) (hy : Static y) : Static (if c then x else y) := by
  split
  · exact hx
  · exact hy

end Static

section Taking

variable (ts : Tokens)

theorem static_peek : Static (peek ts) := ⟨_, rfl⟩

theorem static_atEnd : Static (atEnd ts) := .bind (static_peek ts) fun _ => .pure _

theorem static_unexpected (t : Token) : Static (unexpected t : CompileM α) := by
  unfold unexpected
  split
  · exact .fail
  · exact .fail

theorem static_expectEnd : Static (expectEnd ts) :=
  .bind (static_peek ts) fun t => .ite (static_unexpected t) (.pure _)

theorem static_take? (p : Token → Bool) : Static (take? ts p) := by
  unfold take?
  cases ts with
  | fail e => exact ⟨_, rfl⟩
  | eof q => exact .pure _
  | stuck q => exact .pure _
  | cons t rest => exact .ite (.pure _) (.pure _)

theorem static_takeKind? (kind : TokenKind) : Static (takeKind? ts kind) := static_take? ts _

theorem static_takeWord? (word : String) : Static (takeWord? ts word) := static_take? ts _

theorem static_expect (kind : TokenKind) (what : String) : Static (expect ts kind what) := by
  refine .bind (static_takeKind? ts kind) fun found => ?_
  cases found with
  | some t => exact .pure _
  | none => exact .bind (static_peek ts) fun _ => .fail

theorem static_takeName? : Static (takeName? ts) := .bind (static_peek ts) fun _ => .ite (.pure _) (.pure _)

theorem static_expectName (what : String) : Static (expectName ts what) := by
  refine .bind (static_takeName? ts) fun found => ?_
  cases found with
  | some n => exact .pure _
  | none => exact .bind (static_peek ts) fun _ => .fail

theorem static_takeAs? (f : Token → Option α) : Static (takeAs? ts f) := by
  refine .bind (static_take? ts _) fun found => ?_
  cases found with
  | none => exact .pure _
  | some t => exact .pure _

theorem static_separator (p : Token → Bool) : Static (separator ts p) := by
  refine .bind (static_take? ts p) fun found => ?_
  cases found with
  | some t => exact .pure _
  | none => exact .bind (static_expectEnd ts) fun _ => .pure _

theorem static_plainAssignment? : Static (plainAssignment? ts) := by
  refine .bind (static_takeName? ts) fun found => ?_
  cases found with
  | none => exact .pure _
  | some name =>
    refine .ite (.pure _) (.bind (static_takeKind? _ _) fun found => ?_)
    cases found with
    | none => exact .pure _
    | some sign => exact .pure _

end Taking

theorem static_lastName (ts : Tokens) (name : Token) (what : String) : Static (lastName ts name what) := by
  unfold lastName
  refine .bind (static_takeKind? ts .dot) fun found => ?_
  cases found with
  | none => exact .pure _
  | some dot =>
    obtain ⟨dot, rest, lt⟩ := dot
    refine .bind (static_expectName rest what) fun next => ?_
    obtain ⟨next, rest', le⟩ := next
    exact .bind (static_lastName rest' next what) fun _ => .pure _
termination_by ts.size

end PathScript.Compile
