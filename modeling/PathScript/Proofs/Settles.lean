import PathScript.Compile
import PathScript.Proofs.Checked
import PathScript.Proofs.Layout
import PathScript.Proofs.Placed

/-! # How steps end

A step of compilation ends with a result and a state of which something is known,
or with a fault of the source, at a place of it. What it does not do is to ask
for text that the source does not hold. Of the state, three things matter: the
number of the next site and the functions that are complete, which most steps
keep, and the layouts of the functions around, which only grow. -/

namespace PathScript

namespace Compile

variable {env : Env} {st st' : State} {α β : Type}

/-- How a step ends: with a result and a state as described, or with a fault of the source. -/
def Settles (env : Env) (st : State) (x : CompileM α) (Q : α → State → Prop) : Prop :=
  match x env st with
  | .ok r => Q r.1 r.2
  | .error e => e.Proper env.source

namespace Settles

variable {x y : CompileM α} {f : α → CompileM β} {P Q : α → State → Prop} {R : β → State → Prop}

theorem pure {a : α} (h : Q a st) : Settles env st (pure a) Q := h

theorem bind (hx : Settles env st x P) (hf : ∀ a st', P a st' → Settles env st' (f a) R) :
    Settles env st (x >>= f) R := by
  change match CompileM.bind x f env st with
    | .ok r => R r.1 r.2
    | .error e => e.Proper env.source
  unfold CompileM.bind
  unfold Settles at hx
  cases hr : x env st with
  | error e => rw [hr] at hx; exact hx
  | ok r => rw [hr] at hx; exact hf r.1 r.2 hx

theorem imp (hx : Settles env st x P) (h : ∀ a st', P a st' → Q a st') : Settles env st x Q := by
  unfold Settles at hx ⊢
  cases hr : x env st with
  | error e => rw [hr] at hx; exact hx
  | ok r => rw [hr] at hx; exact h r.1 r.2 hx

theorem fail {fault : CompileFault} {offset : Nat} (hf : fault ≠ .outsideSource) (hp : IsPlace env.source offset) :
    Settles env st (CompileM.fail fault offset) Q := ⟨hf, hp⟩

theorem ite {c : Prop} [Decidable c] (hx : c → Settles env st x Q) (hy : ¬ c → Settles env st y Q) :
    Settles env st (if c then x else y) Q := by
  split
  · exact hx ‹_›
  · exact hy ‹_›

theorem of_ok (hx : Settles env st x Q) {a : α} (h : x env st = .ok (a, st')) : Q a st' := by
  unfold Settles at hx
  rwa [h] at hx

end Settles

theorem bind_eq_ok {x : CompileM α} {f : α → CompileM β} {b : β} :
    (x >>= f) env st = .ok (b, st') ↔ ∃ a s, x env st = .ok (a, s) ∧ f a env s = .ok (b, st') := by
  change CompileM.bind x f env st = _ ↔ _
  unfold CompileM.bind
  cases x env st with
  | error e => simp
  | ok r => exact ⟨fun h => ⟨r.1, r.2, rfl, h⟩, fun ⟨_, _, hr, hf⟩ => by cases hr; exact hf⟩

/-! ## What is kept -/

/-- No site has been numbered, and no function begun or completed. -/
structure State.Keeps (st st' : State) : Prop where
  nextSite : st'.nextSite = st.nextSite
  functions : st'.functions = st.functions
  layouts : Grow st.layouts st'.layouts

namespace State.Keeps

theorem refl (st : State) : st.Keeps st := ⟨rfl, rfl, .refl _⟩

theorem trans {st st' st'' : State} (h : st.Keeps st') (h' : st'.Keeps st'') : st.Keeps st'' :=
  ⟨h'.nextSite.trans h.nextSite, h'.functions.trans h.functions, h.layouts.trans h'.layouts⟩

end State.Keeps

/-- A step that keeps the state in what matters, from every state. -/
def Quiet (env : Env) (x : CompileM α) (Q : α → Prop) : Prop :=
  ∀ st, Settles env st x fun a st' => st.Keeps st' ∧ Q a

namespace Quiet

variable {x y : CompileM α} {f : α → CompileM β} {P Q : α → Prop} {R : β → Prop}

theorem pure {a : α} (h : Q a) : Quiet env (pure a) Q := fun st => .pure ⟨.refl st, h⟩

theorem bind (hx : Quiet env x P) (hf : ∀ a, P a → Quiet env (f a) R) : Quiet env (x >>= f) R :=
  fun st => (hx st).bind fun a st' h => (hf a h.2 st').imp fun _ _ h' => ⟨h.1.trans h'.1, h'.2⟩

theorem imp (hx : Quiet env x P) (h : ∀ a, P a → Q a) : Quiet env x Q :=
  fun st => (hx st).imp fun a _ ha => ⟨ha.1, h a ha.2⟩

theorem fail {fault : CompileFault} {offset : Nat} (hf : fault ≠ .outsideSource) (hp : IsPlace env.source offset) :
    Quiet env (CompileM.fail fault offset) Q := fun _ => .fail hf hp

theorem ite {c : Prop} [Decidable c] (hx : c → Quiet env x Q) (hy : ¬ c → Quiet env y Q) :
    Quiet env (if c then x else y) Q := fun st => .ite (fun h => hx h st) fun h => hy h st

theorem ofExcept {r : Except Located α} (hok : ∀ a, r = .ok a → Q a) (herr : ∀ e, r = .error e → e.Proper env.source) :
    Quiet env (CompileM.ofExcept r) Q := by
  intro st
  cases r with
  | ok a => exact ⟨.refl st, hok a rfl⟩
  | error e => exact herr e rfl

theorem ask : Quiet env CompileM.env (· = env) := fun st => ⟨.refl st, rfl⟩

theorem state : Quiet env CompileM.state fun _ => True := fun st => ⟨.refl st, trivial⟩

theorem modify {g : State → State} (h : ∀ st : State, st.Keeps (g st)) :
    Quiet env (CompileM.modify g) fun _ => True := fun st => ⟨h st, trivial⟩

end Quiet

/-- Checks of types keep the state, and fail for faults of the source. -/
theorem Checks.quiet {offset : Nat} {x : CompileM α} (h : Checks offset x) (hp : IsPlace env.source offset) :
    Quiet env x fun _ => True := by
  intro st
  unfold Settles
  obtain ⟨a, ha⟩ | ⟨-, fault, hfault, he⟩ := h env st
  · rw [ha]
    exact ⟨.refl st, trivial⟩
  · rw [he]
    exact ⟨hfault, hp⟩

/-! ## Nodes and names -/

section Names

variable {span : Span} {offset : Nat}

/-- What is recorded on a node of some place and type. -/
def Env.info (env : Env) (span : Span) (egress : Ty) : Info :=
  ⟨span, egress, env.lineStarts?.map (Source.lineAmong · span.start)⟩

theorem quiet_info (span : Span) (egress : Ty) : Quiet env (info span egress) (· = env.info span egress) :=
  .bind .ask fun _ he => .pure (he ▸ rfl)

theorem quiet_node (span : Span) (egress : Ty) (kind : NodeKind) :
    Quiet env (node span egress kind) (· = ⟨env.info span egress, kind⟩) :=
  .bind (quiet_info span egress) fun _ hi => .pure (hi ▸ rfl)

theorem quiet_sourceText (h : span.In env.source) :
    Quiet env (sourceText span) (· = Text.slice env.source span.start span.stop) := by
  refine .bind .ask fun e he => ?_
  subst he
  rw [h.slice?]
  exact .pure rfl

theorem quiet_classNamed (name : String) : Quiet env (classNamed name) fun _ => True :=
  fun st => ⟨.refl st, trivial⟩

theorem quiet_typeNamed (name : String) : Quiet env (typeNamed name) fun _ => True :=
  fun st => ⟨.refl st, trivial⟩

theorem quiet_typeOfToken {t : Token} (h : t.span.In env.source) : Quiet env (typeOfToken t) fun _ => True := by
  refine .bind (quiet_typeNamed t.text) fun ty _ => ?_
  cases ty with
  | some ty => exact .pure trivial
  | none => exact .fail (by simp) h.start

theorem quiet_bindable {t : Token} (h : t.span.In env.source) :
    Quiet env (bindable t) fun name => isReserved name = false :=
  .ite (fun _ => .fail (by simp) h.start) fun hfree => .pure (Bool.eq_false_iff.mpr hfree)

theorem quiet_declare (h : IsPlace env.source offset) (name : String) (d : Declared) :
    Quiet env (declare name d offset) fun _ => True := by
  refine .bind .state fun st _ => ?_
  cases st.blocks with
  | nil => exact .pure trivial
  | cons block outer =>
    dsimp only
    have hset : Quiet env (CompileM.modify fun st => { st with blocks := block.insert name d :: outer })
        fun _ => True := .modify fun _ => ⟨rfl, rfl, .refl _⟩
    cases block.get? name with
    | none => exact hset
    | some earlier =>
      refine .ite (fun _ => ?_) fun _ => hset
      exact .bind (P := fun _ => True) (.fail (by simp) h) fun _ _ => hset

theorem settles_allocate (name : String) (st : State) :
    Settles env st (allocate name) fun register st' => st.Keeps st' ∧ Bound st'.layouts.head? name register := by
  unfold Settles allocate
  cases hls : st.layouts with
  | nil => exact ⟨.refl st, by rw [hls]; exact nofun⟩
  | cons l outer =>
    obtain ⟨hgrows, hbound⟩ := l.allocate_grows name
    exact ⟨⟨rfl, rfl, hls ▸ .inside hgrows⟩, hbound⟩

theorem quiet_noteRead (name : String) : Quiet env (noteRead name) fun _ => True := by
  intro st
  unfold Settles noteRead
  cases hls : st.layouts with
  | nil => exact ⟨.refl st, trivial⟩
  | cons l outer =>
    by_cases hclass : (classNamed? env st name).isSome = true
    · simp only [if_pos hclass]
      exact ⟨.refl st, trivial⟩
    · simp only [if_neg hclass]
      exact ⟨⟨rfl, rfl, hls ▸ .inside (l.read_grows name)⟩, trivial⟩

theorem quiet_noteRoot (name : String) : Quiet env (noteRoot name) fun _ => True :=
  .bind .state fun _ _ => .ite (fun _ => quiet_noteRead name) fun _ => .pure trivial

theorem settles_bindTarget (h : IsPlace env.source offset) (target : Target) (ty : Ty) (st : State) :
    Settles env st (bindTarget target ty offset) fun register st' =>
      st.Keeps st' ∧ target.Bound st'.layouts.head? register := by
  cases target with
  | path p site => exact .pure ⟨.refl st, trivial⟩
  | name name =>
    refine (Quiet.state st).bind fun _ st₁ h₁ => .ite (fun _ => ?_) fun _ => ?_
    · refine (quiet_declare h _ _ st₁).bind fun _ st₂ h₂ => (settles_allocate name st₂).imp fun _ _ h₃ => ?_
      exact ⟨h₁.1.trans (h₂.1.trans h₃.1), h₃.2⟩
    · exact (settles_allocate name st₁).imp fun _ _ h₂ => ⟨h₁.1.trans h₂.1, h₂.2⟩

theorem quiet_classOperand? (name : String) : Quiet env (classOperand? name) fun _ => True := by
  refine .bind (quiet_classNamed name) fun c _ => ?_
  cases c with
  | some c => exact .pure trivial
  | none => exact .pure trivial

end Names

end Compile

/-! ## Streams -/

namespace Tokens

variable {source : List Char} {lo hi : Nat} {ts rest : Tokens}

theorem Placed.suffix (h : ts.Placed source lo) (hs : Suffix rest ts) : rest.Placed source lo := by
  obtain ⟨taken, rfl⟩ := hs
  induction taken generalizing lo with
  | nil => exact h
  | cons t taken ih =>
    obtain ⟨l, inner⟩ := t
    obtain ⟨hl, -, -, -, hrest⟩ := h
    exact (ih hrest).mono (Nat.le_trans hl.lower hl.span.le)

theorem UpTo.suffix (h : ts.UpTo hi) (hs : Suffix rest ts) : rest.UpTo hi := by
  obtain ⟨taken, rfl⟩ := hs
  induction taken with
  | nil => exact h
  | cons t taken ih =>
    obtain ⟨l, inner⟩ := t
    exact ih h.2.2

theorem Whole.suffix (h : ts.Whole) (hs : Suffix rest ts) : rest.Whole := by
  obtain ⟨taken, rfl⟩ := hs
  induction taken with
  | nil => exact h
  | cons t taken ih =>
    obtain ⟨l, inner⟩ := t
    exact ih h.2

theorem Whole.clean : {ts : Tokens} → ts.Whole → ts.Clean
  | eof p, _ => .eof p
  | cons ⟨_, _⟩ _, h => Clean.cons_iff.mpr (Whole.clean h.2)

/-- A stream that is read: its tokens are stretches of the source between two offsets, and it can be read to its end, at
every depth, if so can the text it is part of. -/
structure Stream (w : Prop) (source : List Char) (lo hi : Nat) (ts : Tokens) : Prop where
  le : lo ≤ hi
  placed : ts.Placed source lo
  upTo : ts.UpTo hi
  lexed : ts.Lexed source
  whole : w → ts.Whole

theorem Stream.mono {w : Prop} {lo' : Nat} (h : Stream w source lo hi ts) (hle : lo' ≤ lo) : Stream w source lo' hi ts :=
  { h with le := Nat.le_trans hle h.le, placed := h.placed.mono hle }

/-- From a stream to a rest of it. If the rest can be read to its end, then so can the stream. -/
structure Moves (ts rest : Tokens) : Prop where
  suffix : rest.Suffix ts
  whole : rest.Whole → ts.Whole

namespace Moves

variable {mid : Tokens}

theorem refl (ts : Tokens) : Moves ts ts := ⟨.refl ts, id⟩

theorem trans (h : Moves ts mid) (h' : Moves mid rest) : Moves ts rest :=
  ⟨h'.suffix.trans h.suffix, h.whole ∘ h'.whole⟩

theorem stream {w : Prop} (h : Moves ts rest) (hs : Stream w source lo hi ts) : Stream w source lo hi rest :=
  ⟨hs.le, hs.placed.suffix h.suffix, hs.upTo.suffix h.suffix, hs.lexed.suffix h.suffix,
    fun hw => (hs.whole hw).suffix h.suffix⟩

end Moves

end Tokens

namespace Compile

open Tokens (Stream Moves)

/-- A stretch of the source, and what is left to be read behind it. -/
structure Passed (w : Prop) (source : List Char) (lo hi : Nat) (span : Span) (rest : Tokens) : Prop extends
    span.Between source lo hi where
  after : Stream w source span.stop hi rest

namespace Passed

variable {w : Prop} {source : List Char} {lo hi lo' hi' : Nat} {s t : Span} {rest : Tokens}

theorem mono (h : Passed w source lo hi s rest) (hle : lo' ≤ lo) : Passed w source lo' hi s rest :=
  ⟨h.toBetween.mono hle (Nat.le_refl hi), h.after⟩

theorem beyond (h : Passed w source s.stop hi t rest) (hs : s.Between source lo hi') : Passed w source lo hi t rest :=
  h.mono hs.lower_stop

theorem cover (h : Passed w source s.stop hi t rest) (hs : s.Between source lo hi') :
    Passed w source lo hi (s.cover t) rest := by
  have hle : s.stop ≤ t.stop := h.lower_stop
  refine ⟨⟨hs.toIn.cover h.toIn, ?_, ?_⟩, ?_⟩
  · exact Nat.le_min.mpr ⟨hs.lower, Nat.le_trans hs.lower_stop h.lower⟩
  · exact Nat.max_le.mpr ⟨Nat.le_trans hle h.upper, h.upper⟩
  · rw [Span.cover, Nat.max_eq_right hle]
    exact h.after

theorem of_between {mid : Nat} (hs : s.Between source lo mid) (h : Stream w source mid hi rest) :
    Passed w source lo hi s rest :=
  ⟨hs.mono (Nat.le_refl lo) h.le, h.mono hs.upper⟩

end Passed

/-- A token drawn from the front of a stream. -/
structure Drawn (w : Prop) (source : List Char) (lo hi : Nat) (ts : Tokens) (t : Token) (rest : Tokens) : Prop where
  stream : Stream w source lo hi ts
  eq : ts = .cons t rest

namespace Drawn

variable {w : Prop} {source : List Char} {lo hi : Nat} {ts rest : Tokens} {t : Token}
  (h : Drawn w source lo hi ts t rest)
include h

theorem placed : t.lexeme.Placed source lo ∧ t.kind ≠ .eof ∧
    t.inner = t.lexeme.innerTokens source ∧ t.inner.Placed source t.span.start ∧ rest.Placed source t.span.stop := by
  have hp := h.stream.placed
  rw [h.eq] at hp
  obtain ⟨l, inner⟩ := t
  exact hp

theorem lexed : (Tokens.cons t rest).Lexed source := h.eq ▸ h.stream.lexed

theorem whole (hw : w) : t.inner.Whole ∧ rest.Whole := by
  have hwhole := h.stream.whole hw
  rw [h.eq] at hwhole
  obtain ⟨l, inner⟩ := t
  exact hwhole

theorem lexeme : t.lexeme.Placed source lo := h.placed.1

theorem upTo : t.span.stop ≤ hi ∧ t.inner.UpTo t.span.stop ∧ rest.UpTo hi := by
  have hu := h.stream.upTo
  rw [h.eq] at hu
  obtain ⟨l, inner⟩ := t
  exact hu

theorem passed : Passed w source lo hi t.span rest :=
  ⟨⟨h.lexeme.span, h.lexeme.lower, h.upTo.1⟩, h.upTo.1, h.placed.2.2.2.2, h.upTo.2.2, h.lexed.tail,
    fun hw => (h.whole hw).2⟩

theorem span : t.span.In source := h.lexeme.span

theorem inner {d : Delim} (hk : t.kind = .group d) :
    Stream w source t.span.start t.span.stop t.inner :=
  ⟨h.span.le, h.placed.2.2.2.1, h.upTo.2.1, h.lexed.inner hk, fun hw => (h.whole hw).1⟩

theorem group (hinner : t.inner.Whole) : Moves ts rest := by
  rw [h.eq]
  refine ⟨.cons (.refl rest), fun hrest => ?_⟩
  obtain ⟨l, inner⟩ := t
  exact ⟨hinner, hrest⟩

theorem plain {kind : TokenKind} (hk : t.kind = kind) (hg : kind.isGroup = false) :
    Moves ts rest := by
  have hk : t.lexeme.kind = kind := hk
  refine h.group ?_
  rw [h.placed.2.2.1, Lexeme.innerTokens, hk]
  cases kind with
  | group d => cases hg
  | _ => trivial

theorem inside {d : Delim} (hk : t.kind = .group d) :
    IsPlace source (t.span.start + 1) := by
  have hk : t.lexeme.kind = .group d := hk
  exact (h.lexeme.enclosed (by rw [hk]; rfl)).1.start

end Drawn

/-- A name drawn from a stream. Only a stream that cannot be read to its end has an empty one. -/
structure DrawnName (w : Prop) (source : List Char) (lo hi : Nat) (ts : Tokens) (t : Token) (rest : Tokens) : Prop extends
    Passed w source lo hi t.span rest where
  moves : Moves ts rest
  word : w → ts = .cons t rest ∧ t.kind = .ident

/-! ## Taking tokens -/

section Taking

variable {w : Prop} {env : Env} {α : Type} {lo hi : Nat} {ts : Tokens}

theorem quiet_unexpected {t : Token} {Q : α → Prop} (h : t.span.In env.source) : Quiet env (unexpected t) Q := by
  unfold unexpected
  split
  · exact .fail (by simp) h.start
  · exact .fail (by simp) h.start

/-- The next token of a stream, which stands in the source. -/
structure Peeked (source : List Char) (ts : Tokens) (t : Token) : Prop where
  head : ts.head = .ok t
  span : t.span.In source
  whole : t.kind = .eof → ts.Whole

theorem passed_stuck {p : Nat} (h : Stream w env.source lo hi (.stuck p)) :
    Passed w env.source lo hi ⟨p, p⟩ (.stuck p) :=
  ⟨⟨.empty h.placed.2, h.placed.1, h.upTo⟩, { h with le := h.upTo, placed := ⟨Nat.le_refl p, h.placed.2⟩ }⟩

section Stream

variable (h : Stream w env.source lo hi ts)
include h

theorem quiet_peek : Quiet env (peek ts) (Peeked env.source ts) := by
  have hp := h.placed
  cases ts with
  | eof p => exact .pure ⟨rfl, .empty hp.2, fun _ => trivial⟩
  | stuck p => exact .pure ⟨rfl, .empty hp.2, nofun⟩
  | fail e => exact .ofExcept nofun fun _ he => by cases he; exact hp
  | cons t rest =>
    have ht : Drawn w env.source lo hi _ t rest := ⟨h, rfl⟩
    exact .pure ⟨rfl, ht.span, fun hk => absurd hk ht.placed.2.1⟩

theorem quiet_atEnd : Quiet env (atEnd ts) fun b => b = true → ts.Whole :=
  .bind (quiet_peek h) fun _ ht => .pure fun hk => ht.whole (beq_iff_eq.mp hk)

theorem quiet_expectEnd : Quiet env (expectEnd ts) fun _ => ts.Whole := by
  refine .bind (quiet_peek h) fun t ht => .ite (fun _ => quiet_unexpected ht.span) fun hk => .pure ?_
  exact ht.whole (by simpa using hk)

/-- What is known of a token that was taken, or of a stream from which none was. -/
def Took (w : Prop) (source : List Char) (lo hi : Nat) (ts : Tokens) (p : Token → Bool) : Option (Taken ts) → Prop
  | some t => Drawn w source lo hi ts t.token t.rest ∧ p t.token = true
  | none => ∀ t rest, ts = .cons t rest → p t = false

theorem quiet_take? (p : Token → Bool) :
    Quiet env (take? ts p) (Took w env.source lo hi ts p) := by
  unfold take?
  cases ts with
  | fail e => exact .ofExcept nofun fun _ he => by cases he; exact h.placed
  | eof q => exact .pure nofun
  | stuck q => exact .pure nofun
  | cons t rest =>
    refine .ite (fun hp => .pure ⟨⟨h, rfl⟩, hp⟩) fun hp => .pure ?_
    rintro t rest ⟨⟩
    exact Bool.eq_false_iff.mpr hp

theorem quiet_takeKind? (kind : TokenKind) : Quiet env (takeKind? ts kind) fun r =>
    ∀ t, r = some t → Drawn w env.source lo hi ts t.token t.rest ∧ t.token.kind = kind := by
  refine (quiet_take? h _).imp ?_
  rintro r hr t rfl
  exact ⟨hr.1, beq_iff_eq.mp hr.2⟩

theorem quiet_takeWord? (word : String) : Quiet env (takeWord? ts word) fun r =>
    ∀ t, r = some t → Moves ts t.rest := by
  refine (quiet_take? h _).imp ?_
  rintro r hr t rfl
  exact hr.1.plain (beq_iff_eq.mp ((Bool.and_eq_true _ _).mp hr.2).1) rfl

theorem quiet_expect (kind : TokenKind) (what : String) :
    Quiet env (expect ts kind what) fun t => Drawn w env.source lo hi ts t.token t.rest ∧ t.token.kind = kind := by
  refine .bind (quiet_takeKind? h kind) fun r hr => ?_
  cases r with
  | some t => exact .pure (hr t rfl)
  | none => exact .bind (quiet_peek h) fun _ ht => .fail (by simp) ht.span.start

theorem quiet_takeName? : Quiet env (takeName? ts) fun r =>
    ∀ n, r = some n → DrawnName w env.source lo hi ts n.token n.rest := by
  refine .bind (quiet_peek h) fun t ht => .ite (fun hk => .pure ?_) fun _ => .pure nofun
  have hk := beq_iff_eq.mp hk
  rintro n ⟨⟩
  cases ts with
  | eof p => cases ht.head; cases hk
  | stuck p => cases ht.head; exact ⟨passed_stuck h, .refl _, fun hw => (h.whole hw).elim⟩
  | fail e => cases ht.head
  | cons t' rest =>
    cases ht.head
    have ht' : Drawn w env.source lo hi _ t rest := ⟨h, rfl⟩
    exact ⟨ht'.passed, ht'.plain hk rfl, fun _ => ⟨rfl, hk⟩⟩

theorem quiet_expectName (what : String) :
    Quiet env (expectName ts what) fun n => DrawnName w env.source lo hi ts n.token n.rest := by
  refine .bind (quiet_takeName? h) fun r hr => ?_
  cases r with
  | some n => exact .pure (hr n rfl)
  | none => exact .bind (quiet_peek h) fun _ ht => .fail (by simp) ht.span.start

theorem quiet_takeAs? (f : Token → Option α)
    (hf : ∀ t, (f t).isSome = true → t.kind.isGroup = false) : Quiet env (takeAs? ts f) fun r =>
    ∀ found, r = some found → Drawn w env.source lo hi ts found.2.token found.2.rest ∧ Moves ts found.2.rest := by
  refine .bind (quiet_take? h _) fun r hr => ?_
  cases r with
  | none => exact .pure nofun
  | some t =>
    refine .pure fun found heq => ?_
    obtain ⟨a, -, rfl⟩ := Option.map_eq_some_iff.mp heq
    exact ⟨hr.1, hr.1.plain rfl (hf _ hr.2)⟩

end Stream

theorem isGroup_of_assign? (t : Token) (h : (assign? t).isSome = true) : t.kind.isGroup = false := by
  cases hk : t.kind with
  | group d => simp [assign?, hk] at h
  | _ => rfl

theorem isGroup_of_operator? (t : Token) (h : (operator? t).isSome = true) : t.kind.isGroup = false := by
  cases hk : t.kind with
  | group d => simp [operator?, hk] at h
  | _ => rfl

theorem isGroup_of_delta? (t : Token) (h : (delta? t).isSome = true) : t.kind.isGroup = false := by
  cases hk : t.kind with
  | group d => simp [delta?, hk] at h
  | _ => rfl

theorem isGroup_of_sign? (t : Token) (h : (sign? t).isSome = true) : t.kind.isGroup = false := by
  cases hk : t.kind with
  | group d => simp [sign?, delta?, hk] at h
  | _ => rfl

/-- How a group goes on behind an item: it has been read to its end, or past a separator. -/
def Parts (ts : Tokens) : Separated ts → Prop
  | .done => ts.Whole
  | .more rest _ => Moves ts rest

theorem quiet_separator (h : Stream w env.source lo hi ts) {p : Token → Bool}
    (hp : ∀ t, p t = true → t.kind.isGroup = false) : Quiet env (separator ts p) (Parts ts) := by
  refine .bind (quiet_take? h p) fun r hr => ?_
  cases r with
  | some t => exact .pure (hr.1.plain rfl (hp _ hr.2))
  | none => exact .bind (quiet_expectEnd h) fun _ hw => .pure hw

theorem isGroup_of_isComma (t : Token) (h : isComma t = true) : t.kind.isGroup = false := by
  rw [beq_iff_eq.mp h]
  rfl

theorem isGroup_of_isCommaOrSemicolon (t : Token) (h : isCommaOrSemicolon t = true) : t.kind.isGroup = false := by
  rcases (Bool.or_eq_true _ _).mp h with h | h
  · rw [beq_iff_eq.mp h]; rfl
  · rw [beq_iff_eq.mp h]; rfl

theorem quiet_plainAssignment? (h : Stream w env.source lo hi ts) : Quiet env (plainAssignment? ts) fun r =>
    ∀ t, r = some t → Passed w env.source lo hi t.token.span t.rest ∧ isReserved t.token.text = false ∧ Moves ts t.rest := by
  refine .bind (quiet_takeName? h) fun found hfound => ?_
  cases found with
  | none => exact .pure nofun
  | some name =>
    have hname := hfound _ rfl
    refine .ite (fun _ => .pure nofun) fun hfree => ?_
    refine .bind (quiet_takeKind? hname.after (.assign none)) fun found hfound => ?_
    cases found with
    | none => exact .pure nofun
    | some sign =>
      obtain ⟨hsign, hkind⟩ := hfound _ rfl
      have hm := hsign.plain hkind rfl
      refine .pure ?_
      rintro t ⟨⟩
      exact ⟨⟨hname.toBetween, hm.stream hname.after⟩, Bool.eq_false_iff.mpr hfree, hname.moves.trans hm⟩

/-- The rest of a class name. -/
structure LastName (w : Prop) (source : List Char) (lo hi : Nat) (ts : Tokens) (n : Named ts) : Prop extends
    Passed w source lo hi n.token.span n.rest where
  moves : Moves ts n.rest
  words : w → ∃ more, ts = .prepend more n.rest ∧ ∀ t ∈ more, t.kind = .ident ∨ t.kind = .dot

theorem quiet_lastName {lo : Nat} {ts : Tokens} {name : Token} (h : Passed w env.source lo hi name.span ts)
    (what : String) : Quiet env (lastName ts name what) (LastName w env.source lo hi ts) := by
  unfold lastName
  refine .bind (quiet_takeKind? h.after .dot) fun found hfound => ?_
  cases found with
  | none => exact .pure ⟨h, .refl ts, fun _ => ⟨[], rfl, nofun⟩⟩
  | some dot =>
    obtain ⟨dot, rest, lt⟩ := dot
    obtain ⟨hdot, hkind⟩ := hfound _ rfl
    have hm := hdot.plain hkind rfl
    refine .bind (quiet_expectName (hm.stream h.after) what) fun next hnext => ?_
    obtain ⟨next, rest', le⟩ := next
    refine .bind (quiet_lastName (hnext.toPassed.beyond h.toBetween) what) fun last hlast => .pure ?_
    refine ⟨hlast.toPassed, hm.trans (hnext.moves.trans hlast.moves), fun hw => ?_⟩
    obtain ⟨hcons, hident⟩ := hnext.word hw
    obtain ⟨more, hmore, hkinds⟩ := hlast.words hw
    refine ⟨dot :: next :: more, ?_, List.forall_mem_cons.mpr ⟨.inr hkind, List.forall_mem_cons.mpr ⟨.inl hident, hkinds⟩⟩⟩
    rw [Tokens.prepend_cons, Tokens.prepend_cons, ← hmore]
    exact hdot.eq.trans (congrArg _ hcons)
termination_by ts.size

end Taking

end Compile

end PathScript
