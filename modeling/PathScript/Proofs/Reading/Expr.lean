import PathScript.Proofs.Builds

/-! # Reading expressions

The readers of expressions call each other on what is left of a stream and on the
insides of groups. What each of them makes is an expression of the grammar. It
stands in the source, so that texts can be cut out by its span; the steps of a
path end behind its start.

Readers that go up to the end of a group have seen all of it, down to the insides
of the groups in it: none of them takes an empty name again and again for the
end. -/

namespace PathScript.Compile

open Tokens (Stream Moves)

variable {w : Prop} {env : Env} {lo hi : Nat} {ts mid rest : Tokens} {parts : List Node} {n : Node}

/-! ## Tokens of a path -/

/-- The tokens between a stream and a rest of it, and the place they take. -/
structure Over (ts rest : Tokens) (span : Span) (tokens : List Token) : Prop where
  taken : ts = .prepend tokens rest
  start : tokens.head?.map (·.span.start) = some span.start
  stop : tokens.getLast?.map (·.span.stop) = some span.stop

theorem Over.single {t : Token} (h : ts = .cons t rest) : Over ts rest t.span [t] := ⟨h, rfl, rfl⟩

/-- The tokens behind a keyword, and the place they take together with it. -/
structure Behind (keyword : Span) (ts rest : Tokens) (span : Span) (tokens : List Token) : Prop where
  taken : ts = .prepend tokens rest
  span : tokens.getLast?.map (keyword.cover ·.span) = some span

theorem Over.behind {t : Token} {tokens : List Token} {span : Span} (hl : (Tokens.cons t ts).Lexed env.source)
    (hclean : rest.Clean) (h : Behind t.span ts rest span tokens) : Over (.cons t ts) rest span (t :: tokens) := by
  obtain ⟨rfl, hspan⟩ := h
  obtain ⟨last, hlast, rfl⟩ := Option.map_eq_some_iff.mp hspan
  rw [hl.cover_eq hclean (List.mem_of_getLast? hlast)]
  refine ⟨rfl, rfl, ?_⟩
  rw [List.getLast?_cons, hlast]
  rfl

section Paths

variable {s : Segment} {span : Span} {items : List (Segment × Nat)} {tokens : List Token} {parts : List (List Token)}
  (hl : ts.Lexed env.source) (hclean : rest.Clean) (hover : Over ts mid span tokens)
  (hhead : HeadWords s.shape (tokens.map Token.word)) (hmid : mid = .prepend parts.flatten rest)
  (hitems : List.Forall₂ StepTokens items parts)
include hl hclean hover hhead hmid hitems

/-- The tokens of a primary and its steps spell the path that is made from them. -/
theorem spelled_of_over {p : Path} (htext : p.text = String.ofList (Text.slice env.source span.start
      (span.start + ((((s, span.stop) :: items).map fun s => s.2 - span.start).getLast?.getD 0))))
    (hsegs : p.segments = ((s, span.stop) :: items).map (·.1))
    (hcuts : p.cuts = ((s, span.stop) :: items).map fun s => s.2 - span.start) : p.Spelled := by
  obtain ⟨rfl, hstart, hstop⟩ := hover
  obtain ⟨first, hfirst, hstart⟩ := Option.map_eq_some_iff.mp hstart
  rw [hmid, ← Tokens.prepend_append] at hl
  obtain ⟨finish, hfinish⟩ : ∃ finish, ((s, span.stop) :: items)[items.length]?.map (·.2) = some finish := by
    simp
  have hlast : ((((s, span.stop) :: items).map fun s => s.2 - span.start).getLast?.getD 0) = finish - span.start := by
    obtain ⟨item, hitem, rfl⟩ := Option.map_eq_some_iff.mp hfinish
    rw [List.getLast?_map, List.getLast?_eq_getElem?, List.length_cons, Nat.add_sub_cancel, hitem]
    rfl
  obtain ⟨text, more, -, -, hend, -⟩ :=
    exists_text_of_tokens hl hclean hhead hfirst hstop hitems (Nat.le_refl _) hfinish
  refine Path.spelled_of_tokens hl hclean hhead hfirst hstop hitems hfinish ?_ (by rw [hcuts, hstart]) hsegs
  rw [htext, hlast, hstart]
  congr 2
  omega

end Paths

theorem kind_of_isStep {t : Token} (h : isStep t = true) :
    (t.kind = .dot ∨ t.kind = .safeDot) ∨ t.kind = .group .bracket := by
  simpa [isStep] using h

/-! ## What readers make -/

/-- A node of some form that was read between two offsets, and the rest behind it. -/
structure Parsed.Stands (w : Prop) (env : Env) (lo hi : Nat) (P : Node → Prop) (a : Parsed ts) : Prop extends
    Passed w env.source lo hi a.node.span a.rest where
  form : P a.node
  moves : Moves ts a.rest

theorem Parsed.Stands.stands {P : Node → Prop} {a : Parsed ts} (h : a.Stands w env lo hi P) :
    env.Stands lo hi P a.node :=
  ⟨h.toBetween, h.form⟩

/-- A reader of a node. -/
abbrev Reads (w : Prop) (env : Env) (lo hi : Nat) (P : Node → Prop) (x : CompileM (Parsed ts)) : Prop :=
  Builds w env [] x (fun a => [a.node]) (Parsed.Stands w env lo hi P)

theorem builds_parsed {x : CompileM Node} {le : rest.size ≤ ts.size} {P : Node → Prop} {span : Span}
    (hp : Passed w env.source lo hi span rest) (hm : Moves ts rest)
    (h : Builds w env parts x (fun n => [n]) fun n => n.span = span ∧ P n) :
    Builds w env parts (x >>= fun n => pure (⟨n, rest, le⟩ : Parsed ts)) (fun a => [a.node])
      (Parsed.Stands w env lo hi P) :=
  h.bind fun _ hn => .pure rfl ⟨hn.1 ▸ hp, hn.2, hm⟩

/-- The segment that a path starts with, if it goes on. -/
def Head.segment : Head → Segment
  | expression n => .base n
  | step s => s

/-- The start of an operand, with the tokens from the first of them on, and the rest behind it. -/
structure Primary.Stands (w : Prop) (env : Env) (lo hi : Nat) (whole : Tokens) (a : Primary ts) : Prop extends
    Passed w env.source lo hi a.span a.rest where
  moves : Moves ts a.rest
  parts : ∀ n ∈ a.head.segment.nodes, n.span = a.span ∧ env.Expr n
  words : w → ∃ tokens, Over whole a.rest a.span tokens ∧ HeadWords a.head.segment.shape (tokens.map Token.word)

theorem Primary.Stands.expression {whole : Tokens} {le : rest.size ≤ ts.size} (hn : env.Expr n)
    (hp : Passed w env.source lo hi n.span rest) (hm : Moves ts rest)
    (hwords : w → ∃ tokens, Over whole rest n.span tokens ∧ HeadWords .base (tokens.map Token.word)) :
    Primary.Stands w env lo hi whole (⟨.expression n, n.span, rest, le⟩ : Primary ts) :=
  ⟨hp, hm, List.forall_mem_singleton.mpr ⟨rfl, hn⟩, hwords⟩

/-- Where steps end that start behind an offset. -/
def lastStop (lo : Nat) (items : List (Segment × Nat)) : Nat := (items.map (·.2)).getLastD lo

theorem stop_of_cuts (item : Segment × Nat) (items : List (Segment × Nat)) {start : Nat}
    (h : start ≤ lastStop item.2 items) :
    start + ((item :: items).map fun s => s.2 - start).getLast?.getD 0 = lastStop item.2 items := by
  simp only [lastStop, List.getLastD_eq_getLast?, List.getLast?_map] at h ⊢
  rw [List.getLast?_cons]
  cases hlast : items.getLast? with
  | none => rw [hlast] at h; exact Nat.add_sub_cancel' h
  | some last => rw [hlast] at h; exact Nat.add_sub_cancel' h

/-- Steps of a path behind an offset, and the rest behind them. -/
structure Steps.Stands (w : Prop) (env : Env) (lo hi : Nat) (a : Steps ts) : Prop where
  moves : Moves ts a.rest
  after : Stream w env.source (lastStop lo a.items) hi a.rest
  place : IsPlace env.source lo → IsPlace env.source (lastStop lo a.items)
  le : lo ≤ lastStop lo a.items
  parts : ∀ s ∈ a.items, ∀ m ∈ s.1.nodes, env.Stands lo (lastStop lo a.items) env.Expr m
  words : w → ∃ parts, ts = .prepend parts.flatten a.rest ∧ List.Forall₂ StepTokens a.items parts

theorem Steps.Stands.cons {item : Segment × Nat} {a : Steps mid} {le : a.rest.size ≤ ts.size} (h : a.Stands w env item.2 hi)
    (hm : Moves ts mid) (hle : lo ≤ item.2) (hplace : IsPlace env.source item.2)
    (hparts : ∀ m ∈ item.1.nodes, env.Stands lo item.2 env.Expr m)
    (hwords : w → ∃ tokens, ts = .prepend tokens mid ∧ StepTokens item tokens) :
    Steps.Stands w env lo hi (⟨item :: a.items, a.rest, le⟩ : Steps ts) := by
  have hstop : lastStop lo (item :: a.items) = lastStop item.2 a.items := by
    rw [lastStop, List.map_cons, List.getLastD_cons, lastStop]
  refine ⟨hm.trans h.moves, hstop ▸ h.after, fun _ => hstop ▸ h.place hplace, hstop ▸ Nat.le_trans hle h.le, ?_, ?_⟩
  · rw [hstop]
    refine List.forall_mem_cons.mpr ⟨fun m hm => (hparts m hm).mono (Nat.le_refl lo) h.le, fun s hs m hm => ?_⟩
    exact (h.parts s hs m hm).mono hle (Nat.le_refl _)
  · intro hw
    obtain ⟨tokens, hts, htokens⟩ := hwords hw
    obtain ⟨parts, hmid, hitems⟩ := h.words hw
    refine ⟨tokens :: parts, ?_, .cons htokens hitems⟩
    rw [List.flatten_cons, Tokens.prepend_append, ← hmid, hts]

/-- The expressions of the elements of a collection. -/
def Elements.nodes : Elements → List Node
  | items nodes => nodes
  | entries pairs => pairs.flatMap fun e => [e.1, e.2]

theorem Elements.nodes_literal (isArray : Bool) (e : Elements) : (e.literal isArray).nodes = e.nodes := by
  cases e with
  | entries pairs => rfl
  | items nodes => cases isArray <;> rfl

theorem holds_of_stands {span : Span} {P : Node → Prop} {ns : List Node}
    (h : ∀ m ∈ ns, env.Stands span.start span.stop P m) : ∀ m ∈ ns, span.Holds m.span :=
  fun m hm => ⟨(h m hm).span.lower, (h m hm).span.upper⟩

theorem builds_collectionNode {span : Span} {e : Elements} (isArray : Bool) (hspan : span.In env.source)
    (h : ∀ m ∈ e.nodes, env.Stands span.start span.stop env.Expr m) :
    Builds w env e.nodes (collectionNode span (e.literal isArray)) (fun n => [n]) fun n => n.span = span ∧ env.Expr n := by
  rw [← e.nodes_literal isArray] at h ⊢
  exact builds_numbered hspan (holds_of_stands h) (fun _ _ => rfl) (fun _ _ => trivial) (fun _ => .refl _) fun _ =>
    .collection (fun m hm => (h m hm).form) rfl

theorem builds_unexpected {α : Type} {t : Token} {made : α → List Node} {Q : α → Prop} (h : t.span.In env.source) :
    Builds w env parts (unexpected t) made Q :=
  fun _ _ _ _ => (quiet_unexpected (Q := fun _ => False) h _).imp fun _ _ hf => hf.2.elim

theorem builds_negativeNumber? {minus : Span} (h : Passed w env.source lo hi minus ts) :
    Builds w env [] (negativeNumber? ts minus) (fun r => (r.map (·.node)).toList) fun r =>
      ∀ a, r = some a → a.Stands w env lo hi env.Expr := by
  refine (quiet_takeKind? h.after .number).andThen fun found hfound => ?_
  cases found with
  | none => exact .pure rfl nofun
  | some number =>
    obtain ⟨hnumber, hkind⟩ := hfound _ rfl
    refine (quiet_peek hnumber.passed.after).andThen fun t _ => .ite (fun _ => .pure rfl nofun) fun _ => ?_
    refine (builds_numberNode hnumber.lexeme (some minus) ?_).bind fun n hn => .pure rfl ?_
    · rintro m ⟨⟩
      exact h.toIn
    · rintro a ⟨⟩
      exact ⟨hn.1 ▸ hnumber.passed.cover h.toBetween, hn.2, hnumber.plain hkind rfl⟩

/-- A path, whatever it starts with. -/
theorem builds_path {first : Primary ts} {more : Steps first.rest} (h : Stream w env.source lo hi ts)
    (hfirst : first.Stands w env lo hi ts) (hmore : more.Stands w env first.span.stop hi) :
    Builds w env (first.head.segment.nodes ++ (more.items.map (·.1)).flatMap Segment.nodes)
      (pathNode first.span.start ((first.head.segment, first.span.stop) :: more.items)) (fun n => [n]) fun n =>
        n.span = ⟨first.span.start, lastStop first.span.stop more.items⟩ ∧ env.Expr n := by
  have hstart := Nat.le_trans hfirst.le hmore.le
  have hspan : Span.In env.source ⟨first.span.start, lastStop first.span.stop more.items⟩ :=
    ⟨hstart, hfirst.start, hmore.place hfirst.stop⟩
  have hstop := stop_of_cuts (first.head.segment, first.span.stop) more.items hstart
  refine builds_pathNode hspan hstop (List.forall_mem_cons.mpr ⟨fun m hm => ?_, fun s hs m hm => ?_⟩)
    fun hw p htext hsegs hcuts => ?_
  · obtain ⟨hm, hform⟩ := hfirst.parts m hm
    refine ⟨?_, hform⟩
    rw [hm]
    exact ⟨hfirst.toIn, Nat.le_refl _, hmore.le⟩
  · exact (hmore.parts s hs m hm).mono hfirst.le (Nat.le_refl _)
  · obtain ⟨tokens, hover, hwords⟩ := hfirst.words hw
    obtain ⟨steps, hmid, hitems⟩ := hmore.words hw
    have hclean := (((hfirst.moves.trans hmore.moves).stream h).whole hw).clean
    exact spelled_of_over h.lexed hclean hover hwords hmid hitems (hstop ▸ htext) hsegs hcuts

section Words

variable {t : Token} {whole : Tokens} (ht : Drawn w env.source lo hi whole t ts) (hk : t.kind = .ident)
include ht hk

/-- A word that stands for a value. -/
theorem builds_word {x : CompileM Node} {le : ts.size ≤ ts.size} {word : String} (hword : t.text = word)
    (hmem : word ∈ literalWords) (hx : Builds w env [] x (fun n => [n]) fun n => n.span = t.span ∧ env.Expr n) :
    Builds w env [] (x >>= fun n => pure (⟨.expression n, n.span, ts, le⟩ : Primary ts)) (fun a => a.head.segment.nodes)
      (Primary.Stands w env lo hi whole) := by
  subst hword
  refine hx.bind fun n hn => .pure rfl (.expression hn.2 (hn.1 ▸ ht.passed) (.refl ts) fun _ => ?_)
  refine ⟨[t], hn.1 ▸ .single ht.eq, ?_⟩
  rw [List.map_singleton, Token.word, hk]
  exact .literal hmem

/-- A node that starts with the word. -/
theorem Primary.Stands.started {le : rest.size ≤ ts.size} (hm : Moves ts rest) (hp : Passed w env.source lo hi n.span rest)
    (hn : env.Expr n) (hwords : w → ∃ tokens, Behind t.span ts rest n.span tokens ∧
      HeadWords .base ((.ident, t.lexeme.chars) :: tokens.map Token.word)) :
    Primary.Stands w env lo hi whole (⟨.expression n, n.span, rest, le⟩ : Primary ts) := by
  refine .expression hn hp hm fun hw => ?_
  obtain ⟨tokens, htokens, hhead⟩ := hwords hw
  refine ⟨t :: tokens, ht.eq ▸ .behind ht.lexed (hp.after.whole hw).clean htokens, ?_⟩
  rw [List.map_cons, Token.word, hk]
  exact hhead

theorem Primary.Stands.step {s : Segment} (hs : s.nodes = []) (hhead : HeadWords s.shape [(.ident, t.lexeme.chars)]) :
    Primary.Stands w env lo hi whole (⟨.step s, t.span, ts, ts.size_le_refl⟩ : Primary ts) := by
  refine ⟨ht.passed, .refl ts, ?_, fun _ => ⟨[t], .single ht.eq, ?_⟩⟩
  · change ∀ m ∈ s.nodes, _
    rw [hs]
    exact nofun
  · rw [List.map_singleton, Token.word, hk]
    exact hhead

end Words

/-! ## Readers -/

mutual

theorem builds_expr (ts : Tokens) {lo hi : Nat} (h : Stream w env.source lo hi ts) :
    Reads w env lo hi env.Expr (expr ts) := by
  unfold expr
  refine (quiet_plainAssignment? h).andThen fun found hfound => ?_
  cases found with
  | some name =>
    obtain ⟨name, rest, lt⟩ := name
    obtain ⟨hname, hfree, hm⟩ := hfound _ rfl
    refine (builds_expr rest hname.after).bind fun value hvalue => Quiet.state.andThen fun st _ => ?_
    have hp := hvalue.toPassed.cover hname.toBetween
    exact builds_parsed hp (hm.trans hvalue.moves) (builds_nameAssignment hp.toIn (fun _ => hfree) hvalue.form)
  | none =>
    refine (builds_unary ts h).bind fun first hfirst => ?_
    obtain ⟨first, rest, le⟩ := first
    have hrest : Stream w env.source first.span.stop hi rest := hfirst.after
    refine (quiet_takeAs? hrest assign? isGroup_of_assign?).andThen fun found hfound => ?_
    cases found with
    | some sign =>
      obtain ⟨op, sign, rest', lt⟩ := sign
      have hm := (hfound _ rfl).2
      refine .read (builds_expr rest' (hm.stream hrest)) fun value hvalue => .unfold hfirst.form fun hlies hsound => ?_
      have hp := hvalue.toPassed.cover hfirst.toBetween
      exact builds_parsed hp (hfirst.moves.trans (hm.trans hvalue.moves)) (builds_assignment hfirst.form hlies.around
        (fun hw => .of_sound (hsound hw)) op hfirst.toIn hp.toIn hvalue.form)
    | none =>
      refine (builds_operators rest hfirst.form hfirst.toPassed).bind fun a ha => .pure rfl ?_
      exact ⟨ha.toPassed, ha.form, hfirst.moves.trans ha.moves⟩
termination_by ts.size * 8 + 5
decreasing_by all_goals omega

theorem builds_operators (ts : Tokens) {lo hi : Nat} {first : Node} (hfirst : env.Expr first)
    (h : Passed w env.source lo hi first.span ts) :
    Builds w env [first] (operators first ts) (fun a => [a.node]) (Parsed.Stands w env lo hi env.Expr) := by
  unfold operators
  refine .read (builds_operatorTail ts h.after) fun tail htail => ?_
  obtain ⟨items, rest, le⟩ := tail
  obtain ⟨hm, stop, hstop, hafter, hitems⟩ := htail
  have hfirst : env.Stands lo stop env.Expr first := ⟨⟨h.toIn, h.lower, hstop⟩, hfirst⟩
  refine (builds_fold hfirst fun i hi => (hitems i hi).mono h.lower_stop (Nat.le_refl stop)).bind fun cond hcond => ?_
  refine (builds_conditional rest hcond.form (.of_between hcond.span hafter)).bind fun a ha => .pure rfl ?_
  exact ⟨ha.toPassed, ha.form, hm.trans ha.moves⟩
termination_by ts.size * 8 + 2
decreasing_by all_goals omega

theorem builds_conditional (ts : Tokens) {lo hi : Nat} {cond : Node} (hcond : env.Expr cond)
    (h : Passed w env.source lo hi cond.span ts) :
    Builds w env [cond] (conditional cond ts) (fun a => [a.node]) (Parsed.Stands w env lo hi env.Expr) := by
  unfold conditional
  refine (quiet_takeKind? h.after .question).andThen fun found hfound => ?_
  cases found with
  | none => exact .pure rfl ⟨h, hcond, .refl ts⟩
  | some sign =>
    obtain ⟨sign, rest, lt⟩ := sign
    obtain ⟨hsign, hkind⟩ := hfound _ rfl
    have hm := hsign.plain hkind rfl
    refine .read (builds_expr rest (hm.stream h.after)) fun yes hyes => ?_
    obtain ⟨yes, rest', le⟩ := yes
    have hrest : Stream w env.source yes.span.stop hi rest' := hyes.after
    refine (quiet_expect hrest .colon _).andThen fun colon hcolon => ?_
    obtain ⟨colon, rest'', lt'⟩ := colon
    have hm' := hcolon.1.plain hcolon.2 rfl
    refine .read (builds_expr rest'' (hm'.stream hrest)) fun no hno => ?_
    have hp := (hno.toPassed.beyond hyes.toBetween).cover h.toBetween
    refine builds_parsed hp (hm.trans (hyes.moves.trans (hm'.trans hno.moves)))
      (builds_node hp.toIn ?_ rfl (.refl _) (.ternary hcond hyes.form hno.form rfl))
    refine List.forall_mem_cons.mpr ⟨.left _ _, List.forall_mem_cons.mpr ⟨?_, List.forall_mem_singleton.mpr (.right _ _)⟩⟩
    exact .cover (Nat.le_trans h.le hyes.lower) hno.lower_stop
termination_by ts.size * 8 + 1
decreasing_by all_goals omega

/-- The operands end where the rest starts, or before. -/
theorem builds_operatorTail (ts : Tokens) {lo hi : Nat} (h : Stream w env.source lo hi ts) :
    Builds w env [] (operatorTail ts) (fun a => a.items.map (·.2)) fun a =>
      Moves ts a.rest ∧ ∃ stop, lo ≤ stop ∧ Stream w env.source stop hi a.rest ∧
        ∀ i ∈ a.items, env.Stands lo stop env.Expr i.2 := by
  unfold operatorTail
  refine (quiet_takeAs? h operator? isGroup_of_operator?).andThen fun found hfound => ?_
  cases found with
  | none => exact .pure rfl ⟨.refl ts, lo, Nat.le_refl lo, h, nofun⟩
  | some sign =>
    obtain ⟨op, sign, rest, lt⟩ := sign
    have hm := (hfound _ rfl).2
    refine .ite (fun _ => (builds_typeOperand rest (hm.stream h)).bind ?_) fun _ =>
      (builds_unary rest (hm.stream h)).bind ?_
    all_goals
      intro n hn
      obtain ⟨n, rest', le⟩ := n
      refine .read (builds_operatorTail rest' hn.after) fun more hmore => .pure rfl ?_
      obtain ⟨hm', stop, hstop, hafter, hitems⟩ := hmore
      refine ⟨hm.trans (hn.moves.trans hm'), stop, Nat.le_trans hn.lower_stop hstop, hafter, ?_⟩
      refine List.forall_mem_cons.mpr ⟨⟨⟨hn.toIn, hn.lower, hstop⟩, hn.form⟩, fun i hi => ?_⟩
      exact (hitems i hi).mono hn.lower_stop (Nat.le_refl stop)
termination_by ts.size * 8 + 1
decreasing_by all_goals omega

theorem builds_typeOperand (ts : Tokens) {lo hi : Nat} (h : Stream w env.source lo hi ts) :
    Reads w env lo hi env.Expr (typeOperand ts) := by
  unfold typeOperand
  refine (quiet_takeName? h).andThen fun found hfound => ?_
  cases found with
  | none => exact builds_unary ts h
  | some name =>
    have hname := hfound _ rfl
    refine (quiet_classOperand? _).andThen fun c _ => ?_
    cases c with
    | none => exact builds_unary ts h
    | some c => exact builds_parsed hname.toPassed hname.moves (builds_literal hname.toIn rfl)
termination_by ts.size * 8 + 5
decreasing_by all_goals omega

theorem builds_unary (ts : Tokens) {lo hi : Nat} (h : Stream w env.source lo hi ts) :
    Reads w env lo hi env.Expr (unary ts) := by
  unfold unary
  refine (quiet_takeAs? h sign? isGroup_of_sign?).andThen fun found hfound => ?_
  cases found with
  | some found =>
    obtain ⟨sign, t, rest, lt⟩ := found
    obtain ⟨ht, hm⟩ := hfound _ rfl
    have ht := ht.passed
    cases sign with
    | not =>
      refine (builds_unary rest ht.after).bind fun n hn => ?_
      have hp := hn.toPassed.cover ht.toBetween
      have haround : ∀ m ∈ [n.node], (t.span.cover n.node.span).Holds m.span := List.forall_mem_singleton.mpr (.right _ _)
      exact builds_parsed hp (hm.trans hn.moves) (builds_node hp.toIn haround rfl (.refl _) (.not hn.form rfl))
    | minus =>
      refine (builds_negativeNumber? ht).bind fun found hfound => ?_
      cases found with
      | some a => exact .pure rfl ⟨(hfound _ rfl).toPassed, (hfound _ rfl).form, hm.trans (hfound _ rfl).moves⟩
      | none =>
        refine (builds_unary rest ht.after).bind fun n hn => ?_
        have hp := hn.toPassed.cover ht.toBetween
        exact builds_parsed hp (hm.trans hn.moves) (builds_negation hp.toIn hn.form)
    | plus =>
      refine (builds_unary rest ht.after).bind fun n hn => .pure rfl ?_
      exact ⟨hn.toPassed.beyond ht.toBetween, hn.form, hm.trans hn.moves⟩
    | change delta =>
      refine (builds_operand rest ht.after).bind fun n hn => .unfold hn.form fun hlies hsound => ?_
      have hp := hn.toPassed.cover ht.toBetween
      refine .perm (.of_eq (List.append_nil _)) (builds_parsed hp (hm.trans hn.moves) ?_)
      exact builds_increment hn.form hlies.around hsound hn.toIn hp.toIn (.right _ _)
  | none =>
    refine (builds_operand ts h).bind fun n hn => ?_
    obtain ⟨n, rest, le⟩ := n
    refine (quiet_takeAs? hn.after delta? isGroup_of_delta?).andThen fun found hfound => ?_
    cases found with
    | none => exact .pure rfl hn
    | some found =>
      obtain ⟨ht, hm⟩ := hfound _ rfl
      have hp := ht.passed.cover hn.toBetween
      refine .unfold hn.form fun hlies hsound => .perm (.of_eq (List.append_nil _)) ?_
      refine builds_parsed hp (hn.moves.trans hm) ?_
      exact builds_increment hn.form hlies.around hsound hn.toIn hp.toIn (.left _ _)
termination_by ts.size * 8 + 4
decreasing_by all_goals omega

theorem builds_operand (ts : Tokens) {lo hi : Nat} (h : Stream w env.source lo hi ts) :
    Reads w env lo hi env.Expr (operand ts) := by
  unfold operand
  refine (builds_primary ts h).bind fun first hfirst => ?_
  obtain ⟨head, span, rest, le⟩ := first
  refine .read (builds_steps rest hfirst.after) fun more hmore => ?_
  obtain ⟨items, rest', le'⟩ := more
  have hm := hfirst.moves.trans hmore.moves
  have hstart : span.start ≤ lastStop span.stop items := Nat.le_trans hfirst.le hmore.le
  have hp : Passed w env.source lo hi ⟨span.start, lastStop span.stop items⟩ rest' :=
    ⟨⟨⟨hstart, hfirst.start, hmore.place hfirst.stop⟩, hfirst.lower, hmore.after.le⟩, hmore.after⟩
  have path := builds_path h hfirst hmore
  cases head with
  | step s => exact builds_parsed hp hm path
  | expression n =>
    refine .ite (fun hempty => ?_) fun _ => builds_parsed hp hm path
    cases List.isEmpty_iff.mp hempty
    obtain ⟨hspan, hform⟩ := hfirst.parts n (List.mem_singleton_self n)
    exact .pure rfl ⟨hspan ▸ hp, hform, hm⟩
termination_by ts.size * 8 + 3
decreasing_by all_goals omega

theorem builds_primary (ts : Tokens) {lo hi : Nat} (h : Stream w env.source lo hi ts) :
    Builds w env [] (primary ts) (fun a => a.head.segment.nodes) (Primary.Stands w env lo hi ts) := by
  unfold primary
  refine (quiet_take? h _).andThen fun found hfound => ?_
  cases found with
  | none =>
    refine (quiet_peek h).andThen fun t ht => .ite (fun hk => ?_) fun _ => builds_unexpected ht.span
    refine (quiet_noteRoot _).andThen fun _ _ => .pure rfl ?_
    -- Only a stream that cannot be read to its end starts with a name that cannot be taken.
    have hhead := ht.head
    cases ts with
    | eof p => cases hhead; cases hk
    | fail e => cases hhead
    | stuck p => cases hhead; exact ⟨passed_stuck h, .refl _, nofun, fun hw => (h.whole hw).elim⟩
    | cons t rest => cases hfound t rest rfl
  | some t =>
    obtain ⟨t, rest, lt⟩ := t
    have ht : Drawn w env.source lo hi ts t rest := hfound.1
    -- A primary that is closed by a single token.
    have closed : ∀ {n : Node} {le : rest.size ≤ ts.size}, (t.kind = .number ∨ t.kind = .str ∨ ∃ d, t.kind = .group d) →
        Moves ts rest → n.span = t.span → env.Expr n →
        Primary.Stands w env lo hi ts (⟨.expression n, n.span, rest, le⟩ : Primary ts) := fun hkind hm hspan hform =>
      .expression hform (hspan ▸ ht.passed) hm fun _ => ⟨[t], hspan ▸ .single ht.eq, .closed hkind⟩
    dsimp only
    split
    next hk =>
      refine (builds_wordPrimary t rest ht hk).bind fun a ha => .pure rfl ?_
      exact ⟨ha.toPassed, (ht.plain hk rfl).trans ha.moves, ha.parts, ha.words⟩
    next hk =>
      exact (builds_numberNode ht.lexeme none nofun).bind fun n hn =>
        .pure rfl (closed (.inl hk) (ht.plain hk rfl) hn.1 hn.2)
    next hk =>
      refine Quiet.andThen (P := fun _ => True) (.ofExcept (fun _ _ => trivial) fun _ he =>
        Literal.proper_text ht.lexeme hk he) fun text _ => ?_
      exact (builds_literal ht.span rfl).bind fun n hn =>
        .pure rfl (closed (.inr (.inl hk)) (ht.plain hk rfl) hn.1 hn.2)
    next hk =>
      refine (builds_wholeExpr t.inner (ht.inside hk) (ht.inner hk)).bind fun inner hinner => ?_
      refine (builds_node (P := env.Expr) ht.span (holds_of_stands (List.forall_mem_singleton.mpr hinner.1)) rfl (.refl _)
        (.group hinner.1.form rfl)).bind fun n hn => ?_
      exact .pure rfl (closed (.inr (.inr ⟨_, hk⟩)) (ht.group hinner.2) hn.1 hn.2)
    next hk =>
      refine (builds_collection t.span false t.inner ht.span (ht.inner hk)).bind fun n hn => .pure rfl ?_
      exact closed (.inr (.inr ⟨_, hk⟩)) (ht.group hn.2.2) hn.1 hn.2.1
    next hk =>
      refine (builds_collection t.span true t.inner ht.span (ht.inner hk)).bind fun n hn => .pure rfl ?_
      exact closed (.inr (.inr ⟨_, hk⟩)) (ht.group hn.2.2) hn.1 hn.2.1
    next => exact builds_unexpected ht.span
termination_by ts.size * 8 + 2
decreasing_by all_goals omega

theorem builds_wordPrimary (t : Token) (ts : Tokens) {lo hi : Nat} {whole : Tokens}
    (ht : Drawn w env.source lo hi whole t ts) (hk : t.kind = .ident) :
    Builds w env [] (wordPrimary t ts) (fun a => a.head.segment.nodes) (Primary.Stands w env lo hi whole) := by
  have value {v : Value} (hv : v.isPlain = true) := builds_literal (w := w) ht.span hv
  unfold wordPrimary
  refine .ite (fun hw => builds_word ht hk hw (by decide) (value rfl)) fun _ => ?_
  refine .ite (fun hw => builds_word ht hk hw (by decide) (value rfl)) fun _ => .ite (fun hw => ?_) fun _ => ?_
  · rcases (Bool.or_eq_true _ _).mp hw with hw | hw
    · exact builds_word ht hk (of_decide_eq_true hw) (by decide) (value rfl)
    · exact builds_word ht hk (of_decide_eq_true hw) (by decide) (value rfl)
  refine .ite (fun hw => builds_word ht hk hw (by decide) (builds_node ht.span nofun rfl (.refl _) (.emptyWord rfl)))
    fun _ => ?_
  refine .ite (fun hw => ?_) fun _ => .ite (fun hw => ?_) fun _ => .ite (fun hw => ?_) fun _ => ?_
  · refine (builds_creation ts ht.passed).bind fun a ha => .pure rfl (.started ht hk ha.1.moves ha.1.toPassed ha.1.form ?_)
    intro hwhole
    obtain ⟨tokens, first, args, more, hbehind, hwords, hdotted⟩ := ha.2 hwhole
    exact ⟨tokens, hbehind, hwords ▸ .creation hw hdotted⟩
  · refine (builds_withExpr ts ht.passed).bind fun a ha => .pure rfl (.started ht hk ha.1.moves ha.1.toPassed ha.1.form ?_)
    intro hwhole
    obtain ⟨tokens, target, body, hbehind, hwords⟩ := ha.2 hwhole
    exact ⟨tokens, hbehind, hwords ▸ .withItems hw⟩
  · exact .pure rfl (.step ht hk rfl (.this hw))
  refine .ite (fun _ => .fail (by simp) ht.span.start) fun hfree => ?_
  have hfree := Bool.eq_false_iff.mpr hfree
  refine (quiet_takeKind? ht.passed.after (.group .paren)).andThen fun found hfound => ?_
  cases found with
  | none => exact (quiet_noteRoot _).andThen fun _ _ => .pure rfl (.step ht hk rfl (.root hfree))
  | some group =>
    obtain ⟨group, rest, lt⟩ := group
    obtain ⟨hgroup, hkind⟩ := hfound _ rfl
    refine (builds_arguments group.inner (hgroup.inner hkind)).bind fun args hargs => ?_
    have hp := hgroup.passed.cover ht.passed.toBetween
    refine (builds_node (P := env.Expr) hp.toIn (fun m hm => (Span.Holds.right _ _).trans (holds_of_stands hargs.2 m hm)) rfl
      (.refl _) (.call (fun m hm => (hargs.2 m hm).form) rfl)).bind fun n hn => .pure rfl ?_
    refine .started ht hk (hgroup.group hargs.1) (hn.1 ▸ hp) hn.2 fun _ => ⟨[group], ⟨hgroup.eq, congrArg some hn.1.symm⟩, ?_⟩
    rw [List.map_singleton, Token.word, hkind]
    exact .call hfree
termination_by ts.size * 8 + 2
decreasing_by all_goals omega

theorem builds_steps (ts : Tokens) {lo hi : Nat} (h : Stream w env.source lo hi ts) :
    Builds w env [] (steps ts) (fun a => (a.items.map (·.1)).flatMap Segment.nodes) (Steps.Stands w env lo hi) := by
  unfold steps
  refine (quiet_take? h isStep).andThen fun found hfound => ?_
  cases found with
  | none => exact .pure rfl ⟨.refl ts, h, id, Nat.le_refl lo, nofun, fun _ => ⟨[], rfl, .nil⟩⟩
  | some t =>
    obtain ⟨t, rest, lt⟩ := t
    obtain ⟨ht, hstep⟩ : Drawn w env.source lo hi ts t rest ∧ isStep t = true := hfound
    have hp := ht.passed
    dsimp only
    split
    next d hk =>
      obtain rfl : d = .bracket := by simpa [isStep, hk] using hstep
      refine (builds_wholeExpr t.inner (ht.inside hk) (ht.inner hk)).bind fun index hindex => ?_
      refine .read (builds_steps rest hp.after) fun more hmore =>
        .pure rfl (.cons hmore (ht.group hindex.2) hp.lower_stop hp.stop ?_ fun _ => ?_)
      · exact List.forall_mem_singleton.mpr (hindex.1.mono hp.lower (Nat.le_refl _))
      · refine ⟨[t], ht.eq, ⟨rfl⟩, ?_⟩
        simp only [List.map_cons, List.map_nil, Token.word, hk]
        exact .index .nil
    next hne =>
      have hpoint : t.kind = .dot ∨ t.kind = .safeDot := (kind_of_isStep hstep).resolve_right fun hk => hne _ hk
      have hm : Moves ts rest := hpoint.elim (ht.plain · rfl) (ht.plain · rfl)
      refine (quiet_expectName hp.after _).andThen fun name hname => ?_
      obtain ⟨name, rest', le⟩ := name
      dsimp only
      have hm' : Moves ts rest' := hm.trans hname.moves
      have hname' : Passed w env.source lo hi name.span rest' := hname.toPassed.beyond hp.toBetween
      refine (quiet_takeKind? hname'.after (.group .paren)).andThen fun found hfound => ?_
      cases found with
      | some group =>
        obtain ⟨group, rest'', lt'⟩ := group
        obtain ⟨hgroup, hkind⟩ := hfound _ rfl
        have hgroup' := hgroup.passed.beyond hname'.toBetween
        refine (builds_arguments group.inner (hgroup.inner hkind)).bind fun args hargs => ?_
        refine .read (builds_steps rest'' hgroup'.after) fun more hmore =>
          .pure rfl (.cons hmore (hm'.trans (hgroup.group hargs.1)) hgroup'.lower_stop hgroup'.stop ?_ fun hw => ?_)
        · exact fun m hm => (hargs.2 m hm).mono hgroup'.lower (Nat.le_refl _)
        · obtain ⟨hcons, hident⟩ := hname.word hw
          refine ⟨[t, name, group], ht.eq.trans (congrArg _ (hcons.trans (congrArg _ hgroup.eq))), ⟨rfl⟩, ?_⟩
          simp only [List.map_cons, List.map_nil, Token.word, hident, hkind]
          exact .method hpoint .nil
      | none =>
        refine (builds_steps rest' hname.after).bind fun more hmore =>
          .pure rfl (.cons hmore hm' hname'.lower_stop hname.stop nofun fun hw => ?_)
        obtain ⟨hcons, hident⟩ := hname.word hw
        refine ⟨[t, name], ht.eq.trans (congrArg _ hcons), ⟨rfl⟩, ?_⟩
        simp only [List.map_cons, List.map_nil, Token.word, hident]
        exact .property hpoint .nil
termination_by ts.size * 8 + 1
decreasing_by all_goals omega

theorem builds_wholeExpr {start : Nat} (ts : Tokens) {lo hi : Nat} (hs : IsPlace env.source start)
    (h : Stream w env.source lo hi ts) :
    Builds w env [] (wholeExpr start ts) (fun n => [n]) fun n => env.Stands lo hi env.Expr n ∧ ts.Whole := by
  unfold wholeExpr
  refine (quiet_atEnd h).andThen fun _ _ => .ite (fun _ => .fail (by simp) hs) fun _ => ?_
  refine (builds_expr ts h).bind fun n hn => (quiet_expectEnd hn.after).andThen fun _ hend => ?_
  exact .pure rfl ⟨hn.stands, hn.moves.whole hend⟩
termination_by ts.size * 8 + 6
decreasing_by all_goals omega

theorem builds_arguments (ts : Tokens) {lo hi : Nat} (h : Stream w env.source lo hi ts) :
    Builds w env [] (arguments ts) (fun ns => ns) fun ns => ts.Whole ∧ ∀ m ∈ ns, env.Stands lo hi env.Expr m := by
  unfold arguments
  refine (quiet_atEnd h).andThen fun _ hend => .ite (fun hb => .pure rfl ⟨hend hb, nofun⟩) fun _ => ?_
  refine (builds_expr ts h).bind fun n hn => ?_
  obtain ⟨n, rest, le⟩ := n
  have hrest : Stream w env.source n.span.stop hi rest := hn.after
  refine (quiet_separator hrest isGroup_of_isComma).andThen fun found hfound => ?_
  cases found with
  | done => exact .pure rfl ⟨hn.moves.whole hfound, List.forall_mem_singleton.mpr hn.stands⟩
  | more rest' lt =>
    have hm := hn.moves.trans hfound
    refine .read (builds_arguments rest' (hm.stream h)) fun _ hns => .pure rfl ⟨hm.whole hns.1, ?_⟩
    exact List.forall_mem_cons.mpr ⟨hn.stands, hns.2⟩
termination_by ts.size * 8 + 6
decreasing_by all_goals omega

theorem builds_collection (span : Span) (isArray : Bool) (ts : Tokens) (hspan : span.In env.source)
    (h : Stream w env.source span.start span.stop ts) :
    Builds w env [] (collection span isArray ts) (fun n => [n]) fun n => n.span = span ∧ env.Expr n ∧ ts.Whole := by
  have made : ∀ {e : Elements}, ts.Whole → (∀ m ∈ e.nodes, env.Stands span.start span.stop env.Expr m) →
      Builds w env e.nodes (collectionNode span (e.literal isArray)) (fun n => [n])
        fun n => n.span = span ∧ env.Expr n ∧ ts.Whole :=
    fun hw he => (builds_collectionNode isArray hspan he).imp fun _ hn => ⟨hn.1, hn.2, hw⟩
  have colon : Quiet env (if isArray = true then pure none else takeKind? ts .colon) fun r =>
      ∀ t, r = some t → Moves ts t.rest := by
    refine .ite (fun _ => .pure nofun) fun _ => (quiet_takeKind? h .colon).imp fun r hr t ht => ?_
    exact (hr t ht).1.plain (hr t ht).2 rfl
  have none : ∀ m ∈ ([] : List Node), env.Stands span.start span.stop env.Expr m := nofun
  unfold collection
  refine colon.andThen fun found hfound => ?_
  cases found with
  | some colon =>
    have hm := hfound _ rfl
    exact (quiet_expectEnd (hm.stream h)).andThen fun _ hend => made (e := .entries []) (hm.whole hend) none
  | none =>
    refine (quiet_atEnd h).andThen fun _ hend => .ite (fun hb => made (e := .items []) (hend hb) none) fun _ => ?_
    refine (builds_expr ts h).bind fun first hfirst => ?_
    obtain ⟨first, rest, le⟩ := first
    have hrest : Stream w env.source span.start span.stop rest := hfirst.moves.stream h
    refine .ite (fun _ => ?_) fun _ => ?_
    · refine .read (builds_moreItems rest hrest) fun ns hns => made (e := .items (first :: ns)) (hfirst.moves.whole hns.1) ?_
      exact List.forall_mem_cons.mpr ⟨hfirst.stands, hns.2⟩
    · refine (builds_elementsTail rest [] hrest none hfirst.stands).bind fun e he => ?_
      exact made (hfirst.moves.whole he.1) he.2
termination_by ts.size * 8 + 6
decreasing_by all_goals omega

theorem builds_moreItems (ts : Tokens) {lo hi : Nat} (h : Stream w env.source lo hi ts) :
    Builds w env [] (moreItems ts) (fun ns => ns) fun ns => ts.Whole ∧ ∀ m ∈ ns, env.Stands lo hi env.Expr m := by
  unfold moreItems
  refine (quiet_separator h isGroup_of_isComma).andThen fun found hfound => ?_
  cases found with
  | done => exact .pure rfl ⟨hfound, nofun⟩
  | more rest lt => exact (builds_arguments rest (hfound.stream h)).imp fun _ hns => ⟨hfound.whole hns.1, hns.2⟩
termination_by ts.size * 8 + 1
decreasing_by all_goals omega

/-- Entries that are dropped again are expressions, which declare no functions. -/
theorem builds_elementsTail (ts : Tokens) {lo hi : Nat} (entries : List (Node × Node)) {first : Node}
    (h : Stream w env.source lo hi ts) (hentries : ∀ m ∈ (Elements.entries entries).nodes, env.Stands lo hi env.Expr m)
    (hfirst : env.Stands lo hi env.Expr first) :
    Builds w env ((Elements.entries entries).nodes ++ [first]) (elementsTail entries first ts) Elements.nodes fun e =>
      ts.Whole ∧ ∀ m ∈ e.nodes, env.Stands lo hi env.Expr m := by
  unfold elementsTail
  refine (quiet_takeKind? h .colon).andThen fun found hfound => ?_
  cases found with
  | none =>
    refine .drop (fun m hm => (hentries m hm).form) (.refl _) (.read (builds_moreItems ts h) fun _ hns => ?_)
    exact .pure rfl ⟨hns.1, List.forall_mem_cons.mpr ⟨hfirst, hns.2⟩⟩
  | some colon =>
    obtain ⟨colon, rest, lt⟩ := colon
    obtain ⟨hcolon, hkind⟩ := hfound _ rfl
    have hm := hcolon.plain hkind rfl
    refine .read (builds_expr rest (hm.stream h)) fun value hvalue => ?_
    obtain ⟨value, rest', le⟩ := value
    have hm' : Moves ts rest' := hm.trans hvalue.moves
    have hnodes : (Elements.entries entries).nodes ++ [first] ++ [value] =
        (Elements.entries (entries ++ [(first, value)])).nodes := by simp [Elements.nodes]
    have hdone : ∀ m ∈ (Elements.entries (entries ++ [(first, value)])).nodes, env.Stands lo hi env.Expr m := by
      rw [← hnodes]
      exact List.forall_mem_append.mpr ⟨List.forall_mem_append.mpr ⟨hentries, List.forall_mem_singleton.mpr hfirst⟩,
        List.forall_mem_singleton.mpr hvalue.stands⟩
    change Builds w env ((Elements.entries entries).nodes ++ [first] ++ [value]) _ _ _
    rw [hnodes]
    refine (quiet_separator (hm'.stream h) isGroup_of_isComma).andThen fun found hfound => ?_
    cases found with
    | done => exact .pure rfl ⟨hm'.whole hfound, hdone⟩
    | more rest'' lt' =>
      have hm'' := hm'.trans hfound
      refine (quiet_atEnd (hm''.stream h)).andThen fun _ hend =>
        .ite (fun hb => .pure rfl ⟨hm''.whole (hend hb), hdone⟩) fun _ => ?_
      refine .read (builds_expr rest'' (hm''.stream h)) fun next hnext => ?_
      obtain ⟨next, rest₃, le'⟩ := next
      have hm₃ := hm''.trans hnext.moves
      exact (builds_elementsTail rest₃ _ (hm₃.stream h) hdone hnext.stands).imp fun _ he => ⟨hm₃.whole he.1, he.2⟩
termination_by ts.size * 8 + 2
decreasing_by all_goals omega

theorem builds_creation {keyword : Span} (ts : Tokens) {lo hi : Nat} (h : Passed w env.source lo hi keyword ts) :
    Builds w env [] (creation keyword ts) (fun a => [a.node]) fun a => a.Stands w env lo hi env.Expr ∧
        (w → ∃ tokens first args more, Behind keyword ts a.rest a.node.span tokens ∧
          tokens.map Token.word = (.ident, first) :: (more ++ [(.group .paren, args)]) ∧
          ∀ u ∈ more, u.1 = .ident ∨ u.1 = .dot) := by
  unfold creation
  refine (quiet_expectName h.after _).andThen fun name hname => ?_
  obtain ⟨name, rest, le⟩ := name
  have hfirst : Passed w env.source keyword.stop hi name.span rest := hname.toPassed
  refine (quiet_lastName hfirst _).andThen fun last hlast => ?_
  obtain ⟨last, rest', le'⟩ := last
  have hm : Moves ts rest' := hname.moves.trans hlast.moves
  have hrest : Stream w env.source last.span.stop hi rest' := hlast.after
  refine (quiet_expect hrest (.group .paren) _).andThen fun group hgroup => ?_
  obtain ⟨group, rest'', lt⟩ := group
  obtain ⟨hgroup, hkind⟩ := hgroup
  dsimp only
  have hp := (hgroup.passed.beyond hlast.toBetween).cover h.toBetween
  refine (builds_arguments group.inner (hgroup.inner hkind)).bind fun args hargs => ?_
  refine ((checks_checkClass _).quiet hlast.start).andThen fun _ _ => .assoc ?_
  refine .bind (builds_numbered (P := env.Expr) hp.toIn
    (fun m hm => (Span.Holds.right _ _).trans (holds_of_stands hargs.2 m hm)) (fun _ _ => rfl) (fun _ _ => trivial)
    (fun _ => .refl _) fun _ => .newObject (fun m hm => (hargs.2 m hm).form) rfl) fun n hn =>
    .pure rfl ⟨⟨hn.1 ▸ hp, hn.2, hm.trans (hgroup.group hargs.1)⟩, fun hw => ?_⟩
  obtain ⟨hcons, hident⟩ := hname.word hw
  obtain ⟨more, hmore, hdotted⟩ := hlast.words hw
  refine ⟨name :: (more ++ [group]), name.lexeme.chars, group.lexeme.chars, more.map Token.word, ⟨?_, ?_⟩, ?_, ?_⟩
  · rw [Tokens.prepend_cons, Tokens.prepend_append]
    exact hcons.trans (congrArg _ (hmore.trans (congrArg _ hgroup.eq)))
  · rw [← List.cons_append, List.getLast?_append]
    exact congrArg some hn.1.symm
  · simp [Token.word, hident, hkind]
  · exact List.forall_mem_map.mpr hdotted
termination_by ts.size * 8 + 1
decreasing_by all_goals omega

theorem builds_withExpr {keyword : Span} (ts : Tokens) {lo hi : Nat} (h : Passed w env.source lo hi keyword ts) :
    Builds w env [] (withExpr keyword ts) (fun a => [a.node]) fun a => a.Stands w env lo hi env.Expr ∧
        (w → ∃ tokens target body, Behind keyword ts a.rest a.node.span tokens ∧
          tokens.map Token.word = [(.group .paren, target), (.group .brace, body)]) := by
  unfold withExpr
  refine (quiet_expect h.after (.group .paren) _).andThen fun head hhead => ?_
  obtain ⟨head, rest, lt⟩ := head
  obtain ⟨hhead, hkind⟩ := hhead
  refine (builds_wholeExpr head.inner (hhead.inside hkind) (hhead.inner hkind)).bind fun target htarget => ?_
  have hm : Moves ts rest := hhead.group htarget.2
  have hrest : Stream w env.source head.span.stop hi rest := hhead.passed.after
  refine (quiet_expect hrest (.group .brace) _).andThen fun body hbody => ?_
  obtain ⟨body, rest', lt'⟩ := body
  obtain ⟨hbody, hkind'⟩ := hbody
  dsimp only
  have hp := (hbody.passed.beyond hhead.passed.toBetween).cover h.toBetween
  refine .read (builds_withItems body.inner (hbody.inner hkind')) fun items hitems => ?_
  have haround : ∀ m ∈ target :: items, (keyword.cover body.span).Holds m.span := by
    refine List.forall_mem_cons.mpr ⟨.cover ?_ ?_, fun m hm => (Span.Holds.right _ _).trans (holds_of_stands hitems.2 m hm)⟩
    · exact Nat.le_trans h.le (Nat.le_trans hhead.passed.lower htarget.1.span.lower)
    · exact Nat.le_trans htarget.1.span.upper hbody.passed.lower_stop
  refine (builds_node (P := env.Expr) hp.toIn haround rfl (.refl _)
    (.withItems htarget.1.form (fun m hm => (hitems.2 m hm).form) rfl)).bind fun n hn =>
    .pure rfl ⟨⟨hn.1 ▸ hp, hn.2, hm.trans (hbody.group hitems.1)⟩, fun _ => ?_⟩
  refine ⟨[head, body], head.lexeme.chars, body.lexeme.chars, ⟨?_, congrArg some hn.1.symm⟩, ?_⟩
  · exact hhead.eq.trans (congrArg _ hbody.eq)
  · rw [List.map_cons, List.map_singleton, Token.word, Token.word, hkind, hkind']
termination_by ts.size * 8 + 1
decreasing_by all_goals omega

theorem builds_withItems (ts : Tokens) {lo hi : Nat} (h : Stream w env.source lo hi ts) :
    Builds w env [] (withItems ts) (fun ns => ns) fun ns => ts.Whole ∧ ∀ m ∈ ns, env.Stands lo hi env.Expr m := by
  unfold withItems
  refine (quiet_atEnd h).andThen fun _ hend => .ite (fun hb => .pure rfl ⟨hend hb, nofun⟩) fun _ => ?_
  refine (builds_withItem ts h).bind fun n hn => ?_
  obtain ⟨n, rest, le⟩ := n
  have hrest : Stream w env.source n.span.stop hi rest := hn.after
  refine (quiet_separator hrest isGroup_of_isCommaOrSemicolon).andThen fun found hfound => ?_
  cases found with
  | done => exact .pure rfl ⟨hn.moves.whole hfound, List.forall_mem_singleton.mpr hn.stands⟩
  | more rest' lt =>
    have hm := hn.moves.trans hfound
    refine .read (builds_withItems rest' (hm.stream h)) fun _ hns => .pure rfl ⟨hm.whole hns.1, ?_⟩
    exact List.forall_mem_cons.mpr ⟨hn.stands, hns.2⟩
termination_by ts.size * 8 + 6
decreasing_by all_goals omega

theorem builds_withItem (ts : Tokens) {lo hi : Nat} (h : Stream w env.source lo hi ts) :
    Reads w env lo hi env.Expr (withItem ts) := by
  unfold withItem
  refine Quiet.andThen (.modify (by exact fun _ => ⟨rfl, rfl, .refl _⟩)) fun _ _ => ?_
  refine (builds_unary ts h).bind fun first hfirst => ?_
  refine Quiet.andThen (.modify (by exact fun _ => ⟨rfl, rfl, .refl _⟩)) fun _ _ => ?_
  obtain ⟨first, rest, le⟩ := first
  have hrest : Stream w env.source first.span.stop hi rest := hfirst.after
  refine (quiet_takeAs? hrest assign? isGroup_of_assign?).andThen fun found hfound => ?_
  cases found with
  | some sign =>
    obtain ⟨op, sign, rest', lt⟩ := sign
    have hm := (hfound _ rfl).2
    refine .read (builds_expr rest' (hm.stream hrest)) fun value hvalue => ?_
    refine (quiet_rebase hfirst.toIn hfirst.form).andThen fun target htarget => .unfold hfirst.form fun hlies hsound => ?_
    obtain ⟨hform, hspan, hchildren, hassignable⟩ := htarget
    have hp : Passed w env.source lo hi (target.span.cover value.node.span) value.rest :=
      hspan ▸ hvalue.toPassed.cover hfirst.toBetween
    rw [← hchildren]
    refine builds_parsed hp (hfirst.moves.trans (hm.trans hvalue.moves)) (builds_assignment hform ?_
      (fun hw => hassignable (hsound hw)) op (hspan ▸ hfirst.toIn) hp.toIn hvalue.form)
    rw [hchildren, hspan]
    exact hlies.around
  | none =>
    refine (builds_operators rest hfirst.form hfirst.toPassed).bind fun a ha => .pure rfl ?_
    exact ⟨ha.toPassed, ha.form, hfirst.moves.trans ha.moves⟩
termination_by ts.size * 8 + 5
decreasing_by all_goals omega

end

end PathScript.Compile
