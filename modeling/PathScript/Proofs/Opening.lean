import PathScript.Proofs.Settles

/-! # Programs of one operand

A statement is an expression unless its first tokens make it something else, and
an expression with nothing behind its first operand is that operand. So where the
first tokens of a text are not those of an assignment, of a declaration or of a
statement with a word of its own, and nothing follows the operand, compiling the
text comes down to reading the operand. -/

namespace PathScript

namespace Compile

variable {ts : Tokens} {env : Env} {st st' : State}

/-! ## Taking tokens -/

theorem bind_ok {α β : Type} {x : CompileM α} {a : α} (h : x env st = .ok (a, st')) (f : α → CompileM β) :
    (x >>= f) env st = f a env st' := by
  show CompileM.bind x f env st = f a env st'
  rw [CompileM.bind, h]

theorem bind_error {α β : Type} {x : CompileM α} {e : Located} (h : x env st = .error e) (f : α → CompileM β) :
    (x >>= f) env st = .error e := by
  show CompileM.bind x f env st = .error e
  rw [CompileM.bind, h]

/-- What goes on in one way behind a step that gives what another gives. -/
theorem bind_of_map {α β γ : Type} {x : CompileM α} {f : α → CompileM β} {y : Except Located (γ × State)}
    {g : γ × State → α × State} {k : γ × State → β × State} (hx : x env st = y.map g)
    (hf : ∀ r, y = .ok r → f (g r).1 env (g r).2 = .ok (k r)) : (x >>= f) env st = y.map k := by
  cases y with
  | error e => exact bind_error hx f
  | ok r => exact (bind_ok hx f).trans (hf r rfl)

theorem bind_map {α β : Type} {x : CompileM α} {f : α → CompileM β} {k : α × State → β × State}
    (hf : ∀ r, x env st = .ok r → f r.1 env r.2 = .ok (k r)) : (x >>= f) env st = (x env st).map k :=
  bind_of_map (g := id) (congrFun Except.map_id _).symm hf

theorem take?_eq_none {p : Token → Bool} {t : Token} (h : ts.head = .ok t) (hp : p t = false) (env : Env) (st : State) :
    take? ts p env st = .ok (none, st) := by
  unfold take?
  cases ts with
  | fail e => cases h
  | eof q => rfl
  | stuck q => rfl
  | cons t' rest =>
    cases h
    dsimp only
    rw [hp]
    rfl

theorem take?_eq_some {p : Token → Bool} {t : Token} {rest : Tokens} (h : ts = .cons t rest) (hp : p t = true)
    (lt : t.inner.size + rest.size < ts.size) (env : Env) (st : State) : take? ts p env st = .ok (some ⟨t, rest, lt⟩, st) := by
  subst h
  unfold take?
  dsimp only
  rw [hp]
  rfl

theorem takeAs?_eq_none {α : Type} {f : Token → Option α} {t : Token} (h : ts.head = .ok t) (hf : f t = none) (env : Env)
    (st : State) : takeAs? ts f env st = .ok (none, st) :=
  bind_eq_ok.mpr ⟨none, st, take?_eq_none h (by rw [hf]; rfl) env st, rfl⟩

theorem peek_eq {t : Token} (h : ts.head = .ok t) (env : Env) (st : State) : peek ts env st = .ok (t, st) := by
  unfold peek
  rw [h]
  rfl

theorem takeName?_eq_none {t : Token} (h : ts.head = .ok t) (hkind : t.kind ≠ .ident) (env : Env) (st : State) :
    takeName? ts env st = .ok (none, st) := by
  refine bind_eq_ok.mpr ⟨t, st, peek_eq h env st, ?_⟩
  rw [if_neg (by simpa using hkind)]
  rfl

theorem takeName?_eq_some {t : Token} (h : ts.head = .ok t) (hkind : t.kind = .ident) (env : Env) (st : State) :
    takeName? ts env st = .ok (some ⟨t, ts.tail, ts.size_tail_le⟩, st) := by
  refine bind_eq_ok.mpr ⟨t, st, peek_eq h env st, ?_⟩
  rw [if_pos (by simpa using hkind)]
  rfl

/-! ## Expressions and statements -/

/-- A stream whose first tokens can only be those of an expression. -/
structure Opens (ts : Tokens) (env : Env) : Prop where
  head : ∃ t, ts.head = .ok t ∧ t.kind ≠ .semicolon ∧ t.kind ≠ .eof
  assignment : ∀ st, plainAssignment? ts env st = .ok (none, st)
  declaration : ∀ st, declHead? ts env st = .ok (none, st)
  plain : ∀ st, statement ts env st = plainStmt ts env st

theorem Opens.of_kind {t : Token} (h : ts.head = .ok t) (hident : t.kind ≠ .ident) (hsemicolon : t.kind ≠ .semicolon)
    (heof : t.kind ≠ .eof) (env : Env) : Opens ts env where
  head := ⟨t, h, hsemicolon, heof⟩
  assignment st := bind_eq_ok.mpr ⟨none, st, takeName?_eq_none h hident env st, rfl⟩
  declaration st := bind_eq_ok.mpr ⟨none, st, takeName?_eq_none h hident env st, rfl⟩
  plain st := by
    have hnone := take?_eq_none (p := (·.kind == .ident)) h (by simpa using hident) env st
    rw [statement, bind_ok hnone]

def Ended (ts : Tokens) : Prop := ∃ last, ts.head = .ok last ∧ last.kind = .eof

namespace Opens

variable (hend : ∀ {a st'}, unary ts env st = .ok (a, st') → Ended a.rest ∧ isWith a.node = false)
include hend

theorem expr_eq (h : Opens ts env) : expr ts env st = unary ts env st := by
  rw [expr, bind_ok (h.assignment st)]
  dsimp only
  refine (bind_map (k := id) fun (a, st') ha => ?_).trans (congrFun Except.map_id _)
  obtain ⟨last, hlast, hkind⟩ := (hend ha).1
  have htail : operatorTail a.rest env st' = .ok (⟨[], a.rest, a.rest.size_le_refl⟩, st') := by
    rw [operatorTail, bind_ok (takeAs?_eq_none hlast (by simp [operator?, hkind]) env st')]
    rfl
  have hconditional : conditional a.node a.rest env st' = .ok (⟨a.node, a.rest, a.rest.size_le_refl⟩, st') := by
    have hnone := take?_eq_none (p := (·.kind == .question)) hlast (by simp [hkind]) env st'
    rw [conditional, takeKind?, bind_ok hnone]
    rfl
  have hfold : Precedence.fold binaryNode a.node [] env st' = .ok (a.node, st') := rfl
  rw [bind_ok (takeAs?_eq_none hlast (by simp [assign?, hkind]) env st')]
  dsimp only
  rw [operators, bind_ok (bind_ok htail _ |>.trans (bind_ok hfold _ |>.trans (bind_ok hconditional _)))]
  rfl

theorem statements_eq (h : Opens ts env) : statements ts env st = (unary ts env st).map fun p => ([p.1.node], p.2) := by
  obtain ⟨t, ht, hsemicolon, heof⟩ := h.head
  have hnone := take?_eq_none (p := (·.kind == .semicolon)) ht (by simpa using hsemicolon) env st
  have hatEnd : atEnd ts env st = .ok (false, st) := by
    rw [atEnd, bind_ok (peek_eq ht env st), beq_eq_false_iff_ne.mpr heof]
    rfl
  have hstatement : statement ts env st = (unary ts env st).map fun p => (⟨p.1, false, nofun⟩, p.2) := by
    have hdeclaration : declaration? ts env st = .ok (none, st) := bind_ok (h.declaration st) _
    rw [h.plain, plainStmt, bind_ok hdeclaration, ← h.expr_eq hend]
    dsimp only
    refine bind_map fun p hp => ?_
    simp only [(hend ((h.expr_eq hend).symm.trans hp)).2, Bool.false_and]
    rfl
  rw [statements, takeKind?, bind_ok hnone]
  dsimp only
  rw [bind_ok hatEnd, if_neg Bool.false_ne_true]
  refine bind_of_map hstatement fun p hp => ?_
  obtain ⟨last, hlast, hkind⟩ := (hend hp).1
  have hlastNone := take?_eq_none (p := (·.kind == .semicolon)) hlast (by simp [hkind]) env p.2
  dsimp only
  rw [takeKind?, bind_ok hlastNone]
  dsimp only
  rw [bind_ok (peek_eq hlast env p.2), if_pos (beq_iff_eq.mpr hkind)]
  rfl

end Opens

theorem Opens.program_eq (h : Opens (.ofText env.source) env) (st : State)
    (hend : ∀ {a st'}, unary (.ofText env.source) env st = .ok (a, st') → Ended a.rest ∧ isWith a.node = false) :
    ∃ i : Ty → Info, program env st = (unary (.ofText env.source) env st).map fun p =>
      (⟨i p.1.node.egress, .block [p.1.node] false⟩, p.2) := by
  have henv : CompileM.env env st = .ok (env, st) := rfl
  obtain ⟨i, hi⟩ : ∃ i : Ty → Info, ∀ ty st, info ⟨0, Text.byteLength env.source⟩ ty env st = .ok (i ty, st) :=
    ⟨_, fun _ _ => rfl⟩
  refine ⟨i, ?_⟩
  rw [program, bind_ok henv]
  exact bind_of_map (h.statements_eq hend) fun p _ => bind_ok (hi p.1.node.egress p.2) _

end Compile

end PathScript
