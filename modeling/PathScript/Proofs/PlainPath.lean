import PathScript.Proofs.Follows.Expr
import PathScript.Proofs.Opening
import PathScript.Proofs.Reading.Stmt

/-! # Plain paths

A path is plain if it starts with a name and goes on with properties and with
indices that are literals. Compilations that start from different numbers make the
same outlines, and the outline of a plain path is all of it. So a text that is a
plain path and nothing else is a program that reads this path. -/

namespace PathScript

/-- A property, or an index that is a literal. -/
def Segment.isPlain : Segment → Bool
  | property _ _ => true
  | index n _ => n.isLiteral
  | _ => false

/-- A name, followed by properties and by indices that are literals. -/
def Path.isPlain (p : Path) : Bool :=
  match p.segments with
  | .root _ :: steps => steps.all Segment.isPlain
  | _ => false

theorem Path.exists_of_isPlain {p : Path} (h : p.isPlain = true) :
    ∃ name steps, p.segments = .root name :: steps ∧ ∀ s ∈ steps, s.isPlain = true := by
  unfold isPlain at h
  split at h
  next name steps hsegments => exact ⟨name, steps, hsegments, List.all_eq_true.mp h⟩
  next => cases h

namespace Compile

variable {α β : Type} {env : Env} {st st' : State} {ts : Tokens}

/-! ## What steps give -/

/-- What is known of the result of a step, in whatever state it is taken. -/
def Yields (env : Env) (x : CompileM α) (Q : α → Prop) : Prop := ∀ st a st', x env st = .ok (a, st') → Q a

namespace Yields

variable {x y : CompileM α} {f : α → CompileM β} {P Q : α → Prop} {R : β → Prop}

theorem pure {a : α} (h : Q a) : Yields env (pure a) Q := fun _ _ _ heq => by cases heq; exact h

theorem bind (hx : Yields env x P) (hf : ∀ a, P a → Yields env (f a) R) : Yields env (x >>= f) R := by
  intro st b st'' heq
  obtain ⟨a, st', ha, hfa⟩ := bind_eq_ok.mp heq
  exact hf a (hx _ _ _ ha) _ _ _ hfa

theorem next (hf : ∀ a, Yields env (f a) R) : Yields env (x >>= f) R :=
  bind (P := fun _ => True) (fun _ _ _ _ => trivial) fun a _ => hf a

theorem fail {fault : CompileFault} {offset : Nat} : Yields env (CompileM.fail fault offset) Q :=
  nofun

theorem ite {c : Prop} [Decidable c] (hx : c → Yields env x Q) (hy : ¬ c → Yields env y Q) :
    Yields env (if c then x else y) Q := by
  split
  · exact hx ‹_›
  · exact hy ‹_›

end Yields

theorem yields_unexpected (t : Token) {Q : α → Prop} : Yields env (unexpected t) Q := by
  unfold unexpected
  split
  · exact .fail
  · exact .fail

theorem yields_peek (ts : Tokens) : Yields env (peek ts) fun t => ts.head = .ok t := by
  intro st t st' heq
  unfold peek CompileM.ofExcept at heq
  cases h : ts.head with
  | error e => rw [h] at heq; cases heq
  | ok t => rw [h] at heq; cases heq; rfl

theorem yields_take? (ts : Tokens) (p : Token → Bool) : Yields env (take? ts p) fun r =>
    ∀ t ∈ r, ts = .cons t.token t.rest ∧ p t.token = true := by
  unfold take?
  cases ts with
  | fail e => exact nofun
  | eof q => exact .pure nofun
  | stuck q => exact .pure nofun
  | cons t rest => exact .ite (fun hp => .pure fun _ ht => by cases ht; exact ⟨rfl, hp⟩) fun _ => .pure nofun

theorem yields_info (span : Span) (egress : Ty) : Yields env (info span egress) (· = env.info span egress) :=
  fun st _ _ h => ((quiet_info span egress st).of_ok h).2

theorem yields_pathNode (start : Nat) (items : List (Segment × Nat)) : Yields env (pathNode start items) fun n =>
    ∀ p site, n.kind = .property p site → p.segments = items.map (·.1) ∧
      p.line = env.lineStarts?.map (Source.lineAmong · p.span.start) := by
  refine .next fun _ => (yields_info _ _).bind fun i hi => .next fun _ => .next fun _ => .pure ?_
  rintro p site ⟨⟩
  exact ⟨rfl, congrArg Info.line hi⟩

/-! ### The start of an operand -/

/-- A name that is read as one, and what is left behind it; an empty name is never taken. -/
inductive NameFirst (ts rest : Tokens) : Prop where
  | taken (t : Token) (hts : ts = .cons t rest) (hkind : t.kind = .ident) (hword : isReserved t.text = false)
  | empty (t : Token) (hhead : ts.head = .ok t) (hkind : t.kind = .ident) (hrest : rest = ts)

/-- A node that is not a path. -/
abbrev NoPath (n : Node) : Prop := ∀ p site, n.kind ≠ .property p site

/-- No expression that an operand starts with is a path, and a name is read as one. -/
structure Head.Begins (named : Prop) (head : Head) : Prop where
  noPath : ∀ n, head = .expression n → NoPath n
  root : ∀ name, head = .step (.root name) → named

theorem yields_node {span : Span} {egress : Ty} {kind : NodeKind} (h : ∀ p site, kind ≠ .property p site) :
    Yields env (node span egress kind) NoPath := .next fun _ => .pure h

theorem yields_expression {x : CompileM Node} {rest : Tokens} {le : rest.size ≤ ts.size} {named : Primary ts → Prop}
    (h : Yields env x NoPath) : Yields env (x >>= fun n => pure (⟨.expression n, n.span, rest, le⟩ : Primary ts)) fun a =>
      a.head.Begins (named a) := h.bind fun _ hn => .pure ⟨fun _ heq => by cases heq; exact hn, nofun⟩

theorem yields_collection (span : Span) (isArray : Bool) (ts : Tokens) :
    Yields env (collection span isArray ts) NoPath := by
  have hnode : ∀ spec : CollectionLiteral, Yields env (collectionNode span spec) NoPath :=
    fun _ => .next fun _ => yields_node nofun
  rw [collection]
  refine .next fun found => ?_
  rcases found with _ | ⟨colon, rest, lt⟩
  · refine .next fun _ => .ite (fun _ => .next fun _ => hnode _) fun _ => .next fun _ => .ite (fun _ => ?_) fun _ => ?_
    · exact .next fun _ => .next fun _ => hnode _
    · exact .next fun _ => hnode _
  · exact .next fun _ => .next fun _ => hnode _

theorem yields_creation (keyword : Span) (ts : Tokens) : Yields env (creation keyword ts) fun a => NoPath a.node := by
  rw [creation]
  exact .next fun _ => .next fun _ => .next fun _ => .next fun _ => .next fun _ => .next fun _ =>
    .bind (yields_node nofun) fun _ h => .pure h

theorem yields_withExpr (keyword : Span) (ts : Tokens) : Yields env (withExpr keyword ts) fun a => NoPath a.node := by
  rw [withExpr]
  exact .next fun _ => .next fun _ => .next fun _ => .next fun _ => .bind (yields_node nofun) fun _ h => .pure h

theorem yields_wordPrimary (t : Token) (ts : Tokens) : Yields env (wordPrimary t ts) fun a =>
    a.head.Begins (a.rest = ts ∧ isReserved t.text = false) := by
  rw [wordPrimary]
  refine .ite (fun _ => yields_expression (yields_node nofun)) fun _ =>
    .ite (fun _ => yields_expression (yields_node nofun)) fun _ =>
    .ite (fun _ => yields_expression (yields_node nofun)) fun _ =>
    .ite (fun _ => yields_expression (yields_node nofun)) fun _ => .ite (fun _ => ?_) fun _ => .ite (fun _ => ?_) fun _ =>
    .ite (fun _ => .pure ⟨nofun, nofun⟩) fun _ => .ite (fun _ => .fail) fun hreserved => .next fun found => ?_
  · exact (yields_creation _ _).bind fun _ h => .pure ⟨fun _ heq => by cases heq; exact h, nofun⟩
  · exact (yields_withExpr _ _).bind fun _ h => .pure ⟨fun _ heq => by cases heq; exact h, nofun⟩
  · rcases found with _ | ⟨group, rest, lt⟩
    · exact .next fun _ => .pure ⟨nofun, fun _ _ => ⟨rfl, Bool.eq_false_iff.mpr hreserved⟩⟩
    · exact .next fun _ => yields_expression (yields_node nofun)

theorem yields_primary (ts : Tokens) : Yields env (primary ts) fun a => a.head.Begins (NameFirst ts a.rest) := by
  rw [primary]
  refine (yields_take? ts _).bind fun found hfound => ?_
  rcases found with _ | ⟨t, rest, lt⟩
  · refine (yields_peek ts).bind fun t ht => .ite (fun hkind => ?_) fun _ => yields_unexpected t
    exact .next fun _ => .pure ⟨by simp, fun _ _ => .empty t ht hkind rfl⟩
  · dsimp only
    split
    next hkind =>
      refine (yields_wordPrimary t rest).bind fun a ha => .pure ⟨ha.noPath, fun name hname => ?_⟩
      obtain ⟨hrest, hword⟩ := ha.root name hname
      exact .taken t ((hfound _ rfl).1.trans (congrArg (Tokens.cons t) hrest.symm)) hkind hword
    · exact yields_expression (.next fun _ => yields_node (by simp))
    · exact .next fun _ => yields_expression (yields_node (by simp))
    · exact .next fun _ => yields_expression (yields_node (by simp))
    · exact yields_expression (yields_collection _ _ _)
    · exact yields_expression (yields_collection _ _ _)
    · exact yields_unexpected t

/-- Behind a primary, a path goes on with a step or ends there. -/
theorem yields_steps_next (ts : Tokens) :
    Yields env (steps ts) fun a => a.rest = ts ∨ ∃ t, ts.head = .ok t ∧ isStep t = true := by
  rw [steps]
  refine (yields_take? ts _).bind fun found hfound => ?_
  rcases found with _ | ⟨t, rest, lt⟩
  · exact .pure (.inl rfl)
  · exact fun _ _ _ _ => .inr ⟨t, by rw [(hfound _ rfl).1]; rfl, (hfound _ rfl).2⟩

/-- An operand that is a path has the line it starts on, and if it is plain, a name in front. -/
def Parsed.Begins (env : Env) (a : Parsed ts) : Prop := ∀ p site, a.node.kind = .property p site →
  p.line = env.lineStarts?.map (Source.lineAmong · p.span.start) ∧ (p.isPlain = true →
    ∃ rest, NameFirst ts rest ∧ (a.rest = rest ∨ ∃ t, rest.head = .ok t ∧ isStep t = true))

theorem yields_operand (ts : Tokens) : Yields env (operand ts) (Parsed.Begins env) := by
  rw [operand]
  refine (yields_primary ts).bind fun ⟨head, span, rest, le⟩ hhead => ?_
  refine (yields_steps_next rest).bind fun ⟨items, rest', le'⟩ hnext => ?_
  have path : ∀ {s : Segment} (le : rest'.size ≤ ts.size), (∀ name, s = .root name → NameFirst ts rest) → Yields env (do
      let n ← pathNode span.start ((s, span.stop) :: items)
      pure (⟨n, rest', le⟩ : Parsed ts)) (Parsed.Begins env) := by
    refine fun le hs => (yields_pathNode _ _).bind fun n hn => .pure fun p site hkind => ?_
    obtain ⟨hsegments, hline⟩ := hn p site hkind
    refine ⟨hline, fun hp => ⟨rest, ?_, hnext⟩⟩
    obtain ⟨name, steps, hplain, -⟩ := Path.exists_of_isPlain hp
    exact hs name (List.cons.inj (hsegments.symm.trans hplain)).1
  cases head with
  | expression n =>
    exact .ite (fun _ => .pure fun p site hkind => absurd hkind (hhead.noPath n rfl p site)) fun _ => path _ nofun
  | step s => exact path _ fun name hs => hhead.root name (hs ▸ rfl)

/-- An operand that the source starts with lies in it, with all its parts. -/
theorem yields_operand_lies : Yields env (operand (.ofText env.source)) fun a =>
    env.Expr a.node ∧ ∀ m, m.Occurs a.node → env.Lies m := by
  intro st a st' h
  obtain ⟨hheld, hstands⟩ := (builds_operand _ (stream_source _) st st [] (.nil (.refl st))).of_ok h
  exact ⟨hstands.form, fun m hm => hheld.lies m ⟨a.node, List.mem_cons_self, hm⟩⟩

/-! ## Plain paths from their outlines -/

theorem literal_eq {n : Node} {v : Value} (hn : env.Lies n) (he : env.Expr n) (hv : n.literal? = some v) :
    n = ⟨env.info n.span v.typeOf, .literal v⟩ := by
  have hline := hn.line
  cases he with
  | literal egress =>
    cases hv
    rw [Env.info, ← egress, ← hline]
    rfl
  | _ => cases hv

theorem segment_eq {s s' : Segment} (h : s.outline = s'.outline) (hs : s.isPlain = true ∨ ∃ name, s = .root name)
    (hn : ∀ n ∈ s.nodes ++ s'.nodes, env.Expr n ∧ env.Lies n) : s = s' := by
  cases s' with
  | index n' safe' =>
    cases s with
    | index n safe =>
      simp only [Segment.outline, Segment.shape, Prod.mk.injEq, Segment.Shape.index.injEq] at h
      obtain ⟨rfl, hindex⟩ := h
      have hliteral : n.isLiteral = true := hs.resolve_right (by simp)
      obtain ⟨v, hv⟩ := Option.isSome_iff_exists.mp hliteral
      rw [hv, Option.map_some, eq_comm, Option.map_eq_some_iff] at hindex
      obtain ⟨v', hv', heq⟩ := hindex
      obtain ⟨hspan, rfl⟩ := Prod.mk.inj heq
      obtain ⟨he, hl⟩ := hn n List.mem_cons_self
      obtain ⟨he', hl'⟩ := hn n' (List.mem_cons_of_mem _ List.mem_cons_self)
      rw [literal_eq hl he hv, literal_eq hl' he' hv', hspan]
    | _ => cases h
  | _ => cases s <;> simp_all [Segment.outline, Segment.shape, Segment.isPlain]

theorem path_eq {p p' : Path} (hp : p.isPlain = true) (h : p.outline = p'.outline) (hline : p.line = p'.line)
    (hn : ∀ n ∈ p.nodes ++ p'.nodes, env.Expr n ∧ env.Lies n) : p = p' := by
  have hplain : ∀ s ∈ p.segments, s.isPlain = true ∨ ∃ name, s = .root name := by
    obtain ⟨name, steps, hsegments, hsteps⟩ := Path.exists_of_isPlain hp
    rw [hsegments]
    exact List.forall_mem_cons.mpr ⟨.inr ⟨name, rfl⟩, fun s hs => .inl (hsteps s hs)⟩
  have hsegments : p.segments = p'.segments := by
    refine List.ext_getElem? fun i => ?_
    have hi := congrArg (·.2.2.2[i]?) h
    simp only [Path.outline, List.getElem?_map] at hi
    cases hs : p.segments[i]? with
    | none =>
      rw [hs] at hi
      exact (Option.map_eq_none_iff.mp hi.symm).symm
    | some s =>
      rw [hs, Option.map_some, eq_comm, Option.map_eq_some_iff] at hi
      obtain ⟨s', hs', heq⟩ := hi
      have hmem := List.mem_of_getElem? hs
      have hnodes : ∀ n ∈ s.nodes ++ s'.nodes, env.Expr n ∧ env.Lies n := fun n hmem' =>
        hn n ((List.mem_append.mp hmem').elim
          (fun h => List.mem_append_left _ (List.mem_flatMap.mpr ⟨s, hmem, h⟩))
          fun h => List.mem_append_right _ (List.mem_flatMap.mpr ⟨s', List.mem_of_getElem? hs', h⟩))
      rw [hs', segment_eq heq.symm (hplain s hmem) hnodes]
  obtain ⟨text, span, segments, cuts, line⟩ := p
  obtain ⟨text', span', segments', cuts', line'⟩ := p'
  simp_all [Path.outline]

/-! ### Programs that are a plain path -/

/-- A stream that starts with a name, behind which a path goes on or ends. -/
structure PathFirst (ts : Tokens) (t : Token) (rest : Tokens) : Prop where
  first : ts = .cons t rest
  ident : t.kind = .ident
  word : isReserved t.text = false
  behind : ∃ next, rest.head = .ok next ∧ next.kind ≠ .ident ∧ next.kind ≠ .assign none

namespace PathFirst

variable {t : Token} {rest : Tokens} (h : PathFirst ts t rest)
include h

theorem head : ts.head = .ok t := by
  rw [h.first]
  rfl

theorem plainAssignment?_eq (env : Env) (st : State) :
    plainAssignment? ts env st = .ok (none, st) := by
  obtain ⟨next, hnext, -, hassign⟩ := h.behind
  refine bind_eq_ok.mpr ⟨_, st, takeName?_eq_some h.head h.ident env st, ?_⟩
  dsimp only
  rw [if_neg (by rw [h.word]; exact Bool.false_ne_true)]
  refine bind_eq_ok.mpr ⟨none, st, take?_eq_none ?_ (by simpa using hassign) env st, rfl⟩
  rw [h.first]
  exact hnext

theorem declHead?_eq (env : Env) (st : State) : declHead? ts env st = .ok (none, st) := by
  obtain ⟨next, hnext, hident, -⟩ := h.behind
  refine bind_eq_ok.mpr ⟨_, st, takeName?_eq_some h.head h.ident env st, ?_⟩
  refine bind_eq_ok.mpr ⟨typeNamed? env st t.text, st, rfl, ?_⟩
  cases typeNamed? env st t.text with
  | none => rfl
  | some ty =>
    refine bind_eq_ok.mpr ⟨none, st, takeName?_eq_none ?_ hident env st, rfl⟩
    rw [h.first]
    exact hnext

variable {a : Parsed ts}

theorem unary_eq (ha : operand ts env st = .ok (a, st')) (hend : Ended a.rest) :
    unary ts env st = .ok (a, st') := by
  obtain ⟨last, hlast, hkind⟩ := hend
  rw [unary, bind_ok (takeAs?_eq_none h.head (by simp [sign?, delta?, h.ident]) env st)]
  dsimp only
  rw [bind_ok ha, bind_ok (takeAs?_eq_none hlast (by simp [delta?, hkind]) env st')]
  rfl

theorem opens (env : Env) : Opens ts env where
  head := ⟨t, h.head, by simp [h.ident], by simp [h.ident]⟩
  assignment := h.plainAssignment?_eq env
  declaration := h.declHead?_eq env
  plain st := by
    have hne : ∀ {word : String}, isReserved word = true → t.text ≠ word := by
      rintro word hword rfl
      exact absurd h.word (by rw [hword]; exact Bool.noConfusion)
    have hnames : t.text ≠ "if" ∧ t.text ≠ "foreach" ∧ t.text ≠ "for" ∧ t.text ≠ "while" ∧ t.text ≠ "until" ∧
        t.text ≠ "do" ∧ t.text ≠ "def" ∧ t.text ≠ "function" ∧ t.text ≠ "return" ∧ t.text ≠ "import" ∧
        t.text ≠ "assert" := by
      refine ⟨?_, ?_, ?_, ?_, ?_, ?_, ?_, ?_, ?_, ?_, ?_⟩ <;> exact hne (by decide)
    have hlt : t.inner.size + rest.size < ts.size := by rw [h.first, Tokens.size_cons]; exact Nat.lt_succ_self _
    rw [statement, bind_ok (take?_eq_some h.first (by simp [h.ident]) hlt env st)]
    simp only [hnames, decide_false, Bool.or_self, Bool.false_eq_true, if_false]

end PathFirst

theorem ended_of_expectEnd (h : expectEnd ts env st = .ok ((), st')) : Ended ts := by
  have hyields : Yields env (expectEnd ts) fun _ => Ended ts :=
    (yields_peek ts).bind fun t ht => .ite (fun _ => yields_unexpected t) fun hkind =>
      .pure ⟨t, ht, by simpa using hkind⟩
  exact hyields _ _ _ h

/-- Nothing but a path can be behind a name at which a path ends with nothing behind it. -/
theorem NameFirst.pathFirst {rest behind : Tokens} (h : NameFirst ts rest)
    (hbehind : behind = rest ∨ ∃ t, rest.head = .ok t ∧ isStep t = true) (hended : Ended behind) :
    ∃ t, PathFirst ts t rest := by
  obtain ⟨last, hlast, hend⟩ := hended
  have hnext : ∃ next, rest.head = .ok next ∧ (isStep next = true ∨ next.kind = .eof) := by
    obtain rfl | ⟨t, ht, hstep⟩ := hbehind
    · exact ⟨last, hlast, .inr hend⟩
    · exact ⟨t, ht, .inl hstep⟩
  obtain ⟨next, hhead, hnext⟩ := hnext
  have hident : next.kind ≠ .ident ∧ next.kind ≠ .assign none := by
    unfold isStep at hnext
    constructor <;> intro hkind <;> simp [hkind] at hnext
  cases h with
  | taken t hts hkind hword => exact ⟨t, hts, hkind, hword, next, hhead, hident⟩
  | empty t ht hkind hrest =>
    subst hrest
    cases ht.symm.trans hhead
    exact absurd hkind hident.1

theorem yields_path (kind : NodeKind) {offset : Nat} : Yields env (match kind with
    | .property path _ => if path.isAssignable then pure path else .fail .notAssignablePath offset
    | _ => .fail .notAssignablePath offset) fun p => ∃ site, kind = .property p site := by
  split
  next path site => exact .ite (fun _ => .pure ⟨site, rfl⟩) fun _ => .fail
  next => exact .fail

/-- A text that is a plain path and nothing else is a program that reads this path. -/
theorem program_eq {p : Path} (hstrict : env.options.strict = false) (h : assignablePath env st = .ok (p, st'))
    (hp : p.isPlain = true) {other : State} (hst : st.Alike False other) :
    ∃ n site other', program env other = .ok (n, other') ∧ ∃ m, n.kind = .block [m] false ∧ m.kind = .property p site := by
  obtain ⟨e, s, he, hread⟩ := bind_eq_ok.mp h
  cases he
  obtain ⟨a, s, ha, hread⟩ := bind_eq_ok.mp hread
  obtain ⟨_, s', hexpect, htree⟩ := bind_eq_ok.mp hread
  have hend := ended_of_expectEnd hexpect
  obtain ⟨site, hkind⟩ := yields_path a.node.kind _ _ _ htree
  obtain ⟨b, other', hb, ⟨halike, hrest⟩, -⟩ := follows_operand _ ⟨rfl, rfl, rfl, hstrict⟩ hst a s ha
  obtain ⟨p', site', hkind', houtline, -⟩ := halike.property hkind
  obtain ⟨hline, hbegins⟩ := yields_operand _ _ _ _ ha p site hkind
  obtain ⟨rest, hname, hbehind⟩ := hbegins hp
  obtain ⟨t, hfirst⟩ := hname.pathFirst hbehind hend
  have parts : ∀ {c : Parsed (.ofText env.source)} {st st' : State} {q : Path} {site : SiteId},
      operand (.ofText env.source) env st = .ok (c, st') → c.node.kind = .property q site →
      ∀ n ∈ q.nodes, env.Expr n ∧ env.Lies n := by
    intro c st st' q site hc hk n hn
    obtain ⟨he, hl⟩ := yields_operand_lies _ _ _ hc
    rw [← children_of_property hk] at hn
    exact ⟨he.child hn, hl n (.under hn (.here n))⟩
  have hline' := (yields_operand _ _ _ _ hb p' site' hkind').1
  have hspan : p.span = p'.span := congrArg (·.2.1) houtline
  obtain rfl : p = p' := path_eq hp houtline (by rw [hline, hline', hspan])
    (List.forall_mem_append.mpr ⟨parts ha hkind, parts hb hkind'⟩)
  have hunary := hfirst.unary_eq hb (hrest ▸ hend)
  have hwith : isWith b.node = false := by simp [isWith, hkind']
  obtain ⟨i, hprogram⟩ := (hfirst.opens env).program_eq other fun hc => by
    cases hunary.symm.trans hc
    exact ⟨hrest ▸ hend, hwith⟩
  exact ⟨_, site', other', hprogram.trans (by rw [hunary]; rfl), b.node, rfl, hkind'⟩

end Compile

theorem compileProgram_eq {env : Compile.Env} {site function : Nat} {c : Compiled Path}
    (hstrict : env.options.strict = false) (h : compilePath env site function = .ok c) (hp : c.tree.isPlain = true)
    (site' function' : Nat) : ∃ c', compileProgram env site' function' = .ok c' ∧
      ∃ n site, c'.tree.kind = .block [n] false ∧ n.kind = .property c.tree site := by
  unfold compilePath Compile.run at h
  split at h
  next p st hpath =>
    cases h
    have hst : (Compile.State.start site function).Alike False (.start site' function') := .start nofun
    obtain ⟨n, s, other, hprogram, m, hblock, hkind⟩ := Compile.program_eq hstrict hpath hp hst
    refine ⟨⟨n, other.functions.reverse, other.nextSite⟩, ?_, m, s, hblock, hkind⟩
    unfold compileProgram Compile.run
    rw [hprogram]
  next => cases h

end PathScript
